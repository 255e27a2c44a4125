import Collective.Manager.Activity
import Collective.Proofs.Answer

/-!
# What a step at a manager does

For each kind of step there is one lemma that says when it can happen and what it leaves behind, all
of it. Invariants are proved from these lemmas.
-/

namespace Collective

/-! ## Numbered lists -/

section

variable {γ : Type} {l : List γ} {x y : γ} {i number : Nat}

theorem getElem?_concat_cases (h : (l ++ [x])[i]? = some y) :
    l[i]? = some y ∨ i = l.length ∧ y = x := by
  rcases Nat.lt_or_ge i l.length with hlt | hge
  · rw [List.getElem?_append_left hlt] at h
    exact .inl h
  · rw [List.getElem?_append_right hge, List.getElem?_singleton] at h
    split at h
    · next hzero => exact .inr ⟨by omega, (Option.some.inj h).symm⟩
    · cases h

theorem getElem?_set_cases (h : (l.set number x)[i]? = some y) :
    i ≠ number ∧ l[i]? = some y ∨ i = number ∧ y = x := by
  by_cases hsame : i = number
  · subst hsame
    rw [List.getElem?_set_self'] at h
    obtain ⟨_, -, hy⟩ := Option.map_eq_some_iff.1 h
    exact .inr ⟨rfl, hy.symm⟩
  · rw [List.getElem?_set_ne (Ne.symm hsame)] at h
    exact .inl ⟨hsame, h⟩

theorem set_eq_self (h : l[number]? = some x) : l.set number x = l := by
  obtain ⟨hlt, rfl⟩ := List.getElem?_eq_some_iff.1 h
  exact List.set_getElem_self hlt

end

/-! ## Links -/

theorem Link.eq_of_opened {remote : Address} {home : Option Address} {maxFrame : Nat} {link : Link}
    {bytes : Bytes} (h : opened remote home maxFrame = .ok (link, bytes)) :
    link = .new remote maxFrame := by
  rw [opened] at h
  split at h <;> cases h
  rfl

/-- A handshake that is taken decides where the link leads. -/
theorem Link.accept?_eq_ok {names : Address.Resolver} {late : Bool} {peer : Address}
    {maxFrame : Nat} {inlet rest : Inlet} {link : Link}
    (h : accept? names late peer maxFrame inlet = some (.ok (link, rest))) : ∃ frame shake,
      inlet.offer? maxFrame = some (.frame frame, rest) ∧ Handshake.read names frame = .ok shake ∧
        link = .new (shake.address.getD peer) maxFrame := by
  rw [accept?] at h
  split at h
  · split at h <;> cases h
  · cases h
  · cases h
  · next frame left hoffer =>
    split at h
    · cases h
    · next shake hread =>
      obtain ⟨rfl, rfl⟩ := Prod.mk.inj (Except.ok.inj (Option.some.inj h))
      exact ⟨frame, shake, hoffer, hread, rfl⟩

/-! ## Read loops -/

/-- A read loop that looks for the next frame ends if its link is closed, and otherwise does with
what the stream offers what this calls for. -/
theorem Reading.next_eq_some {ω α : Type} {decode : Bytes → Except CodecError α}
    {source : Address} {link : Nat} {offer : Option Offer} {m : Manager ω}
    {outcome : Reading.Outcome ω α}
    (h : Reading.next.step? decode source link offer m = some outcome) :
    (m.link? link).any (·.closed) = true ∧ outcome = ⟨m, .close, [], false⟩ ∨
      (m.link? link).any (·.closed) = false ∧
        (offer = some .finished ∧ outcome = ⟨m, .close, [], true⟩ ∨
          (∃ fault, offer = some (.fault fault) ∧
            outcome = ⟨m, .close, m.report source (Link.streamError fault), true⟩) ∨
          (∃ content message, offer = some (.frame content) ∧ decode content = .ok message ∧
            outcome = ⟨m, .next, m.dispatch source message, true⟩) ∨
          ∃ content e, offer = some (.frame content) ∧ decode content = .error e ∧
            outcome = ⟨m, .close, m.report source (.serialization e), true⟩) := by
  simp only [step?] at h
  split at h
  · next hclosed => exact .inl ⟨hclosed, (Option.some.inj h).symm⟩
  · next hopen =>
    refine .inr ⟨by simpa using hopen, ?_⟩
    split at h
    · cases h
    · exact .inl ⟨rfl, (Option.some.inj h).symm⟩
    · next fault => exact .inr (.inl ⟨fault, rfl, (Option.some.inj h).symm⟩)
    · next content =>
      split at h
      · next message hmessage =>
        exact .inr (.inr (.inl ⟨content, message, rfl, hmessage, (Option.some.inj h).symm⟩))
      · next e he =>
        exact .inr (.inr (.inr ⟨content, e, rfl, he, (Option.some.inj h).symm⟩))

namespace Activity

variable {ω α : Type} {decode : Bytes → Except CodecError α} {a b : Activity ω α} {number : Nat}

/-! ## Whatever goes on -/

theorem dialStep?_eq_some {reach : Except TransportError Unit}
    (h : a.dialStep? number reach = some b) : ∃ destination d n e,
      a.dials[number]? = some (destination, d) ∧ d.step? reach destination a.manager = some (n, e) ∧
        b = { a with
          manager := n
          dials := a.dials.set number (destination, e)
          readers := a.readers ++ started destination e } := by
  obtain ⟨⟨destination, d⟩, hd, h⟩ := Option.bind_eq_some_iff.1 h
  obtain ⟨⟨n, e⟩, hmove, h⟩ := Option.bind_eq_some_iff.1 h
  exact ⟨destination, d, n, e, hd, hmove, (Option.some.inj h).symm⟩

theorem arrive?_eq_some {change : Inlet → Inlet} (h : a.arrive? number change = some b) :
    ∃ inbound, a.inbounds[number]? = some inbound ∧ inbound.stage = .greeting ∧
      b = a.putInbound number { inbound with inlet := change inbound.inlet } := by
  obtain ⟨inbound, hinbound, h⟩ := Option.bind_eq_some_iff.1 h
  split at h
  · next hstage => exact ⟨inbound, hinbound, hstage, (Option.some.inj h).symm⟩
  · cases h

theorem greet?_eq_some {names : Address.Resolver} {late : Bool}
    (h : a.greet? number names late = some b) : ∃ inbound,
    a.inbounds[number]? = some inbound ∧ inbound.stage = .greeting ∧
      ((∃ e, Link.accept? names late inbound.peer a.manager.maxFrame inbound.inlet =
            some (.error e) ∧
          b = a.putInbound number { inbound with stage := .refused e }) ∨
        ∃ link inlet,
          Link.accept? names late inbound.peer a.manager.maxFrame inbound.inlet =
            some (.ok (link, inlet)) ∧
          b = { a with manager := (a.manager.addLink link false).1 }.putInbound number
            { inbound with
              inlet
              stage := .adopting link.remote (.look a.manager.connections.length) }) := by
  obtain ⟨inbound, hinbound, h⟩ := Option.bind_eq_some_iff.1 h
  split at h
  · next hstage =>
    refine ⟨inbound, hinbound, hstage, ?_⟩
    obtain ⟨answer, hanswer, h⟩ := Option.bind_eq_some_iff.1 h
    cases answer with
    | error e => exact .inl ⟨e, hanswer, (Option.some.inj h).symm⟩
    | ok taken =>
      obtain ⟨link, inlet⟩ := taken
      exact .inr ⟨link, inlet, hanswer, (Option.some.inj h).symm⟩
  · cases h

theorem abandon?_eq_some (h : a.abandon? number = some b) : ∃ inbound,
    a.inbounds[number]? = some inbound ∧ inbound.stage = .greeting ∧ a.manager.cancelled = true ∧
      b = a.putInbound number { inbound with stage := .abandoned } := by
  obtain ⟨inbound, hinbound, h⟩ := Option.bind_eq_some_iff.1 h
  split at h
  · next hboth => exact ⟨inbound, hinbound, hboth.1, hboth.2, (Option.some.inj h).symm⟩
  · cases h

theorem adopt?_eq_some (h : a.adopt? number = some b) : ∃ inbound source x n y,
    a.inbounds[number]? = some inbound ∧ inbound.stage = .adopting source x ∧
      x.step? source a.manager = some (n, y) ∧
        b = { a with
          manager := n
          readers := a.readers ++ adopted source inbound.inlet x }.putInbound number
            { inbound with stage := .adopting source y } := by
  obtain ⟨inbound, hinbound, h⟩ := Option.bind_eq_some_iff.1 h
  split at h
  · next source x hstage =>
    obtain ⟨⟨n, y⟩, hmove, h⟩ := Option.bind_eq_some_iff.1 h
    exact ⟨inbound, source, x, n, y, hinbound, hstage, hmove, (Option.some.inj h).symm⟩
  · cases h

theorem read?_eq_some (h : a.read? decode number = some b) : ∃ r outcome,
    a.readers[number]? = some r ∧
      r.reading.step? decode r.source r.link ((r.inlet.offer? a.manager.maxFrame).map (·.1))
        a.manager = some outcome ∧
      b = { a with
        manager := outcome.manager
        readers := a.readers.set number { r with
          inlet := if outcome.took then
            ((r.inlet.offer? a.manager.maxFrame).map (·.2)).getD r.inlet else r.inlet
          reading := outcome.reading }
        notices := a.notices ++ outcome.notices } := by
  obtain ⟨r, hr, h⟩ := Option.bind_eq_some_iff.1 h
  obtain ⟨outcome, hmove, h⟩ := Option.bind_eq_some_iff.1 h
  exact ⟨r, outcome, hr, hmove, (Option.some.inj h).symm⟩

/-- A loop that can go on does. -/
theorem read?_of_step? {r : Reader} {outcome : Reading.Outcome ω α}
    (hr : a.readers[number]? = some r)
    (hmove : r.reading.step? decode r.source r.link
      ((r.inlet.offer? a.manager.maxFrame).map (·.1)) a.manager = some outcome) :
    a.read? decode number = some { a with
      manager := outcome.manager
      readers := a.readers.set number { r with
        inlet := if outcome.took then
          ((r.inlet.offer? a.manager.maxFrame).map (·.2)).getD r.inlet else r.inlet
        reading := outcome.reading }
      notices := a.notices ++ outcome.notices } := by
  rw [read?, hr, Option.bind_eq_bind, Option.bind_some]
  dsimp only
  rw [hmove, Option.bind_eq_bind, Option.bind_some]

theorem step?_of_read?_eq_none {r : Reader} (hr : a.readers[number]? = some r)
    (h : a.read? decode number = none) :
    r.reading.step? decode r.source r.link ((r.inlet.offer? a.manager.maxFrame).map (·.1))
      a.manager = none := by
  rw [read?, hr, Option.bind_eq_bind, Option.bind_some] at h
  refine Option.eq_none_iff_forall_ne_some.2 fun outcome hmove => ?_
  cases Option.bind_eq_none_iff.1 h outcome hmove

theorem send?_eq_some {frame : Bytes} (h : a.send? number frame = some b) : ∃ l,
    a.manager.link? number = some l ∧
      b = { a with sendings := a.sendings ++ [⟨number, frame, match l.check frame with
        | .ok () => none
        | .error e => some (.error e)⟩] } := by
  obtain ⟨l, hl, h⟩ := Option.bind_eq_some_iff.1 h
  exact ⟨l, hl, (Option.some.inj h).symm⟩

theorem join?_eq_some (h : a.join? number = some b) : ∃ s l,
    a.sendings[number]? = some s ∧ a.manager.link? s.link = some l ∧ s.answer = none ∧
      ((∃ sent, l.enqueue s.frame = .ok sent ∧
          b = { a with
            manager := a.manager.modifyLink s.link fun _ => sent
            sendings := a.sendings.set number { s with answer := some (.ok ()) } }) ∨
        ∃ e, l.enqueue s.frame = .error e ∧
          b = { a with
            sendings := a.sendings.set number { s with answer := some (.error e) } }) := by
  obtain ⟨s, hs, h⟩ := Option.bind_eq_some_iff.1 h
  obtain ⟨l, hl, h⟩ := Option.bind_eq_some_iff.1 h
  split at h
  · cases h
  · next hanswer =>
    refine ⟨s, l, hs, hl, by simpa using hanswer, ?_⟩
    split at h
    · next sent hsent => exact .inl ⟨sent, hsent, (Option.some.inj h).symm⟩
    · next e he => exact .inr ⟨e, he, (Option.some.inj h).symm⟩

theorem disposeStep?_eq_some (h : a.disposeStep? number = some b) : ∃ x n y,
    a.disposals[number]? = some x ∧ x.step? a.manager = some (n, y) ∧
      b = { a with manager := n, disposals := a.disposals.set number y } := by
  obtain ⟨x, hx, h⟩ := Option.bind_eq_some_iff.1 h
  obtain ⟨⟨n, y⟩, hmove, h⟩ := Option.bind_eq_some_iff.1 h
  exact ⟨x, n, y, hx, hmove, (Option.some.inj h).symm⟩

theorem link?_eq_some {event : Link.Event} (h : a.link? number event = some b) : ∃ l moved,
    a.manager.link? number = some l ∧ l.step? event = some moved ∧
      b = { a with manager := a.manager.modifyLink number fun _ => moved } := by
  obtain ⟨l, hl, h⟩ := Option.bind_eq_some_iff.1 h
  obtain ⟨moved, hmoved, h⟩ := Option.bind_eq_some_iff.1 h
  exact ⟨l, moved, hl, hmoved, (Option.some.inj h).symm⟩

/-! ## Any step -/

/-- What each kind of step needs, and what it leaves behind. -/
inductive Steps (decode : Bytes → Except CodecError α) (a : Activity ω α) :
    Event → Activity ω α → Prop
  | dial (destination : Address) :
      Steps decode a (.dial destination) { a with dials := a.dials ++ [(destination, .start)] }
  | dialStep {call : Nat} {reach : Except TransportError Unit} {destination : Address} {d e : Dial}
      {n : Manager ω} (hd : a.dials[call]? = some (destination, d))
      (hmove : d.step? reach destination a.manager = some (n, e)) :
      Steps decode a (.dialStep call reach) { a with
        manager := n
        dials := a.dials.set call (destination, e)
        readers := a.readers ++ started destination e }
  | connect (peer : Address) :
      Steps decode a (.connect peer)
        { a with inbounds := a.inbounds ++ [⟨peer, .start, .greeting⟩] }
  | arrive {inbound : Nat} {i : Inbound} (piece : Bytes) (hi : a.inbounds[inbound]? = some i)
      (hstage : i.stage = .greeting) :
      Steps decode a (.arrive inbound piece)
        (a.putInbound inbound { i with inlet := i.inlet.receive piece })
  | depart {inbound : Nat} {i : Inbound} (hi : a.inbounds[inbound]? = some i)
      (hstage : i.stage = .greeting) :
      Steps decode a (.depart inbound) (a.putInbound inbound { i with inlet := i.inlet.finish })
  | refuse {inbound : Nat} {names : Address.Resolver} {late : Bool} {i : Inbound}
      {e : TransportError} (hi : a.inbounds[inbound]? = some i) (hstage : i.stage = .greeting)
      (haccept : Link.accept? names late i.peer a.manager.maxFrame i.inlet = some (.error e)) :
      Steps decode a (.greet inbound names late)
        (a.putInbound inbound { i with stage := .refused e })
  | abandon {inbound : Nat} {i : Inbound} (hi : a.inbounds[inbound]? = some i)
      (hstage : i.stage = .greeting) (hcancelled : a.manager.cancelled = true) :
      Steps decode a (.abandon inbound) (a.putInbound inbound { i with stage := .abandoned })
  | greet {inbound : Nat} {names : Address.Resolver} {late : Bool} {i : Inbound} {link : Link}
      {inlet : Inlet} (hi : a.inbounds[inbound]? = some i) (hstage : i.stage = .greeting)
      (haccept : Link.accept? names late i.peer a.manager.maxFrame i.inlet =
        some (.ok (link, inlet))) :
      Steps decode a (.greet inbound names late)
        ({ a with manager := (a.manager.addLink link false).1 }.putInbound inbound { i with
          inlet
          stage := .adopting link.remote (.look a.manager.connections.length) })
  | adopt {inbound : Nat} {i : Inbound} {source : Address} {x y : Adoption} {n : Manager ω}
      (hi : a.inbounds[inbound]? = some i) (hstage : i.stage = .adopting source x)
      (hmove : x.step? source a.manager = some (n, y)) :
      Steps decode a (.adopt inbound) ({ a with
        manager := n
        readers := a.readers ++ adopted source i.inlet x }.putInbound inbound
          { i with stage := .adopting source y })
  | receive {reader : Nat} {r : Reader} (piece : Bytes) (hr : a.readers[reader]? = some r) :
      Steps decode a (.receive reader piece)
        { a with readers := a.readers.set reader { r with inlet := r.inlet.receive piece } }
  | finish {reader : Nat} {r : Reader} (hr : a.readers[reader]? = some r) :
      Steps decode a (.finish reader)
        { a with readers := a.readers.set reader { r with inlet := r.inlet.finish } }
  | read {reader : Nat} {r : Reader} {outcome : Reading.Outcome ω α}
      (hr : a.readers[reader]? = some r)
      (hmove : r.reading.step? decode r.source r.link
        ((r.inlet.offer? a.manager.maxFrame).map (·.1)) a.manager = some outcome) :
      Steps decode a (.read reader) { a with
        manager := outcome.manager
        readers := a.readers.set reader { r with
          inlet := if outcome.took then
            ((r.inlet.offer? a.manager.maxFrame).map (·.2)).getD r.inlet else r.inlet
          reading := outcome.reading }
        notices := a.notices ++ outcome.notices }
  | send {number : Nat} {l : Link} (frame : Bytes) (hl : a.manager.link? number = some l) :
      Steps decode a (.send number frame)
        { a with sendings := a.sendings ++ [⟨number, frame, match l.check frame with
          | .ok () => none
          | .error e => some (.error e)⟩] }
  | join {sending : Nat} {s : Sending} {l sent : Link} (hs : a.sendings[sending]? = some s)
      (hl : a.manager.link? s.link = some l) (hanswer : s.answer = none)
      (hsent : l.enqueue s.frame = .ok sent) :
      Steps decode a (.join sending) { a with
        manager := a.manager.modifyLink s.link fun _ => sent
        sendings := a.sendings.set sending { s with answer := some (.ok ()) } }
  | fail {sending : Nat} {s : Sending} {l : Link} {e : TransportError}
      (hs : a.sendings[sending]? = some s) (hl : a.manager.link? s.link = some l)
      (hanswer : s.answer = none) (herror : l.enqueue s.frame = .error e) :
      Steps decode a (.join sending)
        { a with sendings := a.sendings.set sending { s with answer := some (.error e) } }
  | dispose : Steps decode a .dispose { a with disposals := a.disposals ++ [.start] }
  | disposeStep {disposal : Nat} {x y : Disposal} {n : Manager ω}
      (hx : a.disposals[disposal]? = some x) (hmove : x.step? a.manager = some (n, y)) :
      Steps decode a (.disposeStep disposal)
        { a with manager := n, disposals := a.disposals.set disposal y }
  | link {number : Nat} {event : Link.Event} {l moved : Link}
      (hl : a.manager.link? number = some l) (hmoved : l.step? event = some moved) :
      Steps decode a (.link number event)
        { a with manager := a.manager.modifyLink number fun _ => moved }

theorem steps_of_step? {event : Event} (hstep : a.step? decode event = some b) :
    a.Steps decode event b := by
  cases event with
  | dial destination =>
    cases hstep
    exact .dial destination
  | dialStep call reach =>
    obtain ⟨_, _, _, _, hd, hmove, rfl⟩ := dialStep?_eq_some hstep
    exact .dialStep hd hmove
  | connect peer =>
    rw [step?] at hstep
    split at hstep <;> cases hstep
    exact .connect peer
  | arrive inbound piece =>
    have harrive : a.arrive? inbound (·.receive piece) = some b := hstep
    obtain ⟨_, hi, hstage, rfl⟩ := arrive?_eq_some harrive
    exact .arrive piece hi hstage
  | depart inbound =>
    obtain ⟨_, hi, hstage, rfl⟩ := arrive?_eq_some hstep
    exact .depart hi hstage
  | greet inbound names late =>
    obtain ⟨_, hi, hstage, ⟨_, haccept, rfl⟩ | ⟨_, _, haccept, rfl⟩⟩ := greet?_eq_some hstep
    · exact .refuse hi hstage haccept
    · exact .greet hi hstage haccept
  | abandon inbound =>
    obtain ⟨_, hi, hstage, hcancelled, rfl⟩ := abandon?_eq_some hstep
    exact .abandon hi hstage hcancelled
  | adopt inbound =>
    obtain ⟨_, _, _, _, _, hi, hstage, hmove, rfl⟩ := adopt?_eq_some hstep
    exact .adopt hi hstage hmove
  | receive reader piece =>
    obtain ⟨_, hr, rfl⟩ := Option.map_eq_some_iff.1 hstep
    exact .receive piece hr
  | finish reader =>
    obtain ⟨_, hr, rfl⟩ := Option.map_eq_some_iff.1 hstep
    exact .finish hr
  | read reader =>
    obtain ⟨_, _, hr, hmove, rfl⟩ := read?_eq_some hstep
    exact .read hr hmove
  | send link frame =>
    obtain ⟨_, hl, rfl⟩ := send?_eq_some hstep
    exact .send frame hl
  | join sending =>
    obtain ⟨_, _, hs, hl, hanswer, ⟨_, hsent, rfl⟩ | ⟨_, herror, rfl⟩⟩ := join?_eq_some hstep
    · exact .join hs hl hanswer hsent
    · exact .fail hs hl hanswer herror
  | dispose =>
    cases hstep
    exact .dispose
  | disposeStep disposal =>
    obtain ⟨_, _, _, hx, hmove, rfl⟩ := disposeStep?_eq_some hstep
    exact .disposeStep hx hmove
  | link number event =>
    obtain ⟨_, _, hl, hmoved, rfl⟩ := link?_eq_some hstep
    exact .link hl hmoved

/-- Connections are dropped only once the manager has been cancelled. -/
theorem abandoned_of_step? {event : Event} (hstep : a.step? decode event = some b) {j : Inbound}
    (hj : b.inbounds[number]? = some j) (hstage : j.stage = .abandoned) :
    a.manager.cancelled = true ∨
      ∃ i, a.inbounds[number]? = some i ∧ i.stage = .abandoned := by
  cases steps_of_step? hstep with
  | abandon _ _ hcancelled => exact .inl hcancelled
  | connect peer =>
    obtain hi | ⟨-, rfl⟩ := getElem?_concat_cases hj
    · exact .inr ⟨j, hi, hstage⟩
    · cases hstage
  | arrive _ _ hbefore | depart _ hbefore =>
    obtain ⟨-, hi⟩ | ⟨-, rfl⟩ := getElem?_set_cases hj
    · exact .inr ⟨j, hi, hstage⟩
    · cases hbefore.symm.trans hstage
  | refuse | greet | adopt =>
    obtain ⟨-, hi⟩ | ⟨-, rfl⟩ := getElem?_set_cases hj
    · exact .inr ⟨j, hi, hstage⟩
    · cases hstage
  | _ => exact .inr ⟨j, hj, hstage⟩

/-- A manager that has been disposed of or cancelled stays so, whatever happens. -/
theorem succeeds_of_step? {event : Event} (hstep : a.step? decode event = some b) :
    b.manager.Succeeds a.manager := by
  cases steps_of_step? hstep with
  | dialStep _ hmove => exact .dialStep hmove
  | adopt _ _ hmove => exact .adoptionStep hmove
  | read _ hmove => exact .readingStep hmove
  | disposeStep _ hmove => exact .disposalStep hmove
  | greet | join | link => exact .of_eq rfl rfl
  | _ => exact .refl _

/-- What a step does to the disposals. -/
theorem disposals_of_step? {event : Event} (hstep : a.step? decode event = some b) :
    b.disposals = a.disposals ∨ b.disposals = a.disposals ++ [.start] ∨
      ∃ number x y, a.disposals[number]? = some x ∧ x.step? a.manager = some (b.manager, y) ∧
        b.disposals = a.disposals.set number y := by
  cases steps_of_step? hstep with
  | dispose => exact .inr (.inl rfl)
  | disposeStep hx hmove => exact .inr (.inr ⟨_, _, _, hx, hmove, rfl⟩)
  | _ => exact .inl rfl

/-- What a step does to the read loops. -/
theorem readers_of_step? {event : Event} (hstep : a.step? decode event = some b) :
    (∃ more, b.readers = a.readers ++ more ∧ ∀ r ∈ more, r.reading = .next) ∨
      ∃ number r s, a.readers[number]? = some r ∧ b.readers = a.readers.set number s ∧
        s.link = r.link ∧ (s.reading = r.reading ∨ event = .read number ∧
          ∃ offer outcome, r.reading.step? decode r.source r.link offer a.manager = some outcome ∧
            s.reading = outcome.reading) := by
  cases steps_of_step? hstep with
  | @dialStep _ _ _ _ e _ _ _ =>
    refine .inl ⟨_, rfl, fun r hr => ?_⟩
    cases e with
    | store tries cell link => rw [List.mem_singleton.1 hr]
    | _ => cases hr
  | @adopt _ _ _ x _ _ _ _ _ =>
    refine .inl ⟨_, rfl, fun r hr => ?_⟩
    cases x with
    | store link cell => rw [List.mem_singleton.1 hr]
    | _ => cases hr
  | receive piece hr => exact .inr ⟨_, _, _, hr, rfl, rfl, .inl rfl⟩
  | finish hr => exact .inr ⟨_, _, _, hr, rfl, rfl, .inl rfl⟩
  | read hr hmove => exact .inr ⟨_, _, _, hr, rfl, rfl, .inr ⟨rfl, _, _, hmove, rfl⟩⟩
  | _ => exact .inl ⟨[], (List.append_nil _).symm, nofun⟩

/-- What holds at first, and is kept by every step, holds after any steps. -/
theorem run?_induct {P : Activity ω α → Prop} {events : List Event} (hstart : P a)
    (hstep : ∀ {event : Event} {b c : Activity ω α}, P b → b.step? decode event = some c → P c)
    (hrun : a.run? decode events = some b) : P b :=
  foldlM_induct hstart hstep hrun

end Activity

end Collective
