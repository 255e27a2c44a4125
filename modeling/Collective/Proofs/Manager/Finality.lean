import Collective.Proofs.Manager.Links

/-!
# Disposal is final

Calls that have begun before a manager is disposed of go on for a while: they make cells and links,
and peers' connections are taken over. None of this undoes a disposal. Once no disposal is at work
any more, all links are closed and stay so, new links are closed from the start, and nobody is told
anything (`Activity.Over`).
-/

namespace Collective

/-! ## Closed links -/

namespace Manager

variable {ω : Type} {m : Manager ω}

theorem cachedLinks_eq_zero (h : ∀ number, m.isOpen number = false) : m.cachedLinks = 0 := by
  rw [cachedLinks, List.countP_eq_zero]
  intro destination _
  cases m.cached? destination with
  | none => simp
  | some number => simp [h number]

/-- Over closed links nothing is sent, whatever value it is to be. -/
theorem post_of_closed {α : Type} (h : m.Links (·.closed = true)) (codec : Codec α) (number : Nat)
    (value : α) : ∃ e, m.post codec number value = .error e := by
  rw [post]
  cases codec.encode value with
  | error e => exact ⟨_, rfl⟩
  | ok frame =>
    dsimp only
    rw [send]
    cases hl : m.link? number with
    | none => exact ⟨_, rfl⟩
    | some l =>
      obtain ⟨e, he⟩ := Link.send_of_closed (h.of_link? hl) frame
      refine ⟨e, ?_⟩
      dsimp only
      rw [he]
      rfl

/-- The read loop of a closed link takes nothing and tells nobody anything. -/
theorem Links.quiet {α : Type} (h : m.Links (·.closed = true))
    {decode : Bytes → Except CodecError α} {source : Address} {link : Nat} {c : Connection}
    (hc : m.connections[link]? = some c) {offer : Option Offer} {r : Reading}
    {outcome : Reading.Outcome ω α} (hstep : r.step? decode source link offer m = some outcome) :
    outcome.took = false ∧ outcome.notices = [] := by
  cases r with
  | next =>
    have hclosed : (m.link? link).any (·.closed) = true := by
      rw [link?, hc]
      exact h c (List.mem_of_getElem? hc)
    obtain ⟨-, rfl⟩ | ⟨hopen, -⟩ := Reading.next_eq_some hstep
    · exact ⟨rfl, rfl⟩
    · rw [hclosed] at hopen
      cases hopen
  | close =>
    cases hstep
    exact ⟨rfl, rfl⟩
  | evict =>
    cases hstep
    exact ⟨rfl, rfl⟩
  | done => cases hstep

/-- A disposal of a manager that has been disposed of ends at once. -/
theorem dispose_of_disposed (h : m.disposed = true) : m.dispose = m := by
  rw [dispose, if_pos h]

end Manager

theorem Disposal.step?_of_disposed {ω : Type} {m n : Manager ω} {x y : Disposal}
    (h : m.disposed = true) (hx : x = .start ∨ x = .done) (hstep : x.step? m = some (n, y)) :
    n = m ∧ y = .done := by
  obtain rfl | rfl := hx
  · rw [step?, if_pos h] at hstep
    cases hstep
    exact ⟨rfl, rfl⟩
  · cases hstep

theorem Dial.step?_start_of_disposed {ω : Type} {m : Manager ω} (h : m.disposed = true)
    (reach : Except TransportError Unit) (destination : Address) :
    Dial.start.step? reach destination m = some (m, .answered (.error .disposed)) := by
  rw [start, step?, if_pos h]

namespace Activity

variable {ω α : Type} {decode : Bytes → Except CodecError α} {a b c : Activity ω α}
  {owners : List Address}

/-- Disposals that have begun have marked the manager. -/
def Marked (a : Activity ω α) : Prop := ∀ d ∈ a.disposals, d ≠ .start → a.manager.disposed = true

theorem Marked.step (h : a.Marked) {event : Event} (hstep : a.step? decode event = some b) :
    b.Marked := by
  have hstays := (succeeds_of_step? hstep).disposed
  intro d hd hne
  obtain hsame | hnew | ⟨number, x, y, hx, hmove, hset⟩ := disposals_of_step? hstep
  · exact hstays (h d (hsame ▸ hd) hne)
  · rw [hnew] at hd
    rcases List.mem_append.1 hd with hd | hd
    · exact hstays (h d hd hne)
    · exact absurd (List.mem_singleton.1 hd) hne
  · rw [hset] at hd
    rcases List.mem_or_eq_of_mem_set hd with hd | rfl
    · exact hstays (h d hd hne)
    · cases x with
      | start =>
        rw [Disposal.step?] at hmove
        split at hmove
        · next hdisposed => exact hstays hdisposed
        · rw [← (Prod.mk.inj (Option.some.inj hmove)).1]
      | _ => exact hstays (h _ (List.mem_of_getElem? hx) (by simp))

/-! ## Once a manager has been disposed of -/

/-- The manager of the first of two moments has been disposed of, and this is how things stand in
the second: no disposal does anything, and calls and sends that have begun since come to nothing. -/
structure Over (a b : Activity ω α) : Prop where
  disposed : b.manager.disposed = true
  cancelled : b.manager.cancelled = true
  disposal : ∀ d ∈ b.disposals, d = .start ∨ d = .done
  dial : ∀ {i : Nat} {destination : Address} {d : Dial}, a.dials.length ≤ i →
    b.dials[i]? = some (destination, d) → d = .start ∨ d = .answered (.error .disposed)
  sending : ∀ {i : Nat} {s : Sending}, a.sendings.length ≤ i → b.sendings[i]? = some s →
    ∃ e, s.answer = some (.error e)
  notices : b.notices = a.notices

namespace Over

theorem refl (hdisposed : a.manager.disposed = true) (hcancelled : a.manager.cancelled = true)
    (hdisposal : ∀ d ∈ a.disposals, d = .start ∨ d = .done) : a.Over a where
  disposed := hdisposed
  cancelled := hcancelled
  disposal := hdisposal
  dial hge hi := absurd (List.getElem?_eq_some_iff.1 hi).1 (Nat.not_lt.2 hge)
  sending hge hi := absurd (List.getElem?_eq_some_iff.1 hi).1 (Nat.not_lt.2 hge)
  notices := rfl

/-- The manager goes on to another state. -/
theorem withManager (h : a.Over b) {n : Manager ω} (hn : n.Succeeds b.manager) :
    a.Over { b with manager := n } :=
  { h with disposed := hn.disposed h.disposed, cancelled := hn.cancelled h.cancelled }

theorem dials (h : a.Over b) {call : Nat} {reach : Except TransportError Unit}
    (hstep : b.dialStep? call reach = some c) : a.Over c := by
  obtain ⟨destination, d, n, e, hd, hmove, rfl⟩ := dialStep?_eq_some hstep
  refine { h.withManager (.dialStep hmove) with dial := ?_ }
  intro i other x hge hi
  obtain ⟨-, hi⟩ | ⟨rfl, hx⟩ := getElem?_set_cases hi
  · exact h.dial hge hi
  · obtain ⟨rfl, rfl⟩ := Prod.mk.inj hx
    obtain rfl | rfl := h.dial hge hd
    · rw [Dial.step?_start_of_disposed h.disposed] at hmove
      cases hmove
      exact .inr rfl
    · cases hmove

theorem reads (h : a.Over b) (hkept : b.Kept owners) (hclosed : b.manager.Links (·.closed = true))
    {reader : Nat} (hstep : b.read? decode reader = some c) :
    a.Over c ∧ c.notices = b.notices ∧ c.readers.map (·.inlet) = b.readers.map (·.inlet) := by
  obtain ⟨r, outcome, hr, hmove, rfl⟩ := read?_eq_some hstep
  obtain ⟨_, hlink⟩ := (hkept.reader r (List.mem_of_getElem? hr)).exists_link
  obtain ⟨htook, hnotices⟩ := hclosed.quiet hlink hmove
  dsimp only
  rw [htook, hnotices, List.append_nil, List.map_set]
  refine ⟨{ h.withManager (.readingStep hmove) with }, rfl, ?_⟩
  exact set_eq_self (by rw [List.getElem?_map, hr]; rfl)

theorem sends (h : a.Over b) (hclosed : b.manager.Links (·.closed = true)) {link : Nat}
    {frame : Bytes} (hstep : b.send? link frame = some c) : a.Over c := by
  obtain ⟨l, hl, rfl⟩ := send?_eq_some hstep
  refine { h with sending := ?_ }
  intro i s hge hi
  obtain hi | ⟨-, rfl⟩ := getElem?_concat_cases hi
  · exact h.sending hge hi
  · rw [Link.check_of_closed (hclosed.of_link? hl)]
    exact ⟨_, rfl⟩

theorem joins (h : a.Over b) {sending : Nat} (hstep : b.join? sending = some c) : a.Over c := by
  obtain ⟨s, l, hs, hl, hanswer, hcase⟩ := join?_eq_some hstep
  have hkeeps : ∀ {answer : Except TransportError Unit} {i : Nat} {x : Sending},
      a.sendings.length ≤ i →
        (b.sendings.set sending { s with answer := some answer })[i]? = some x →
        ∃ e, x.answer = some (.error e) := by
    intro answer i x hge hi
    obtain ⟨-, hi⟩ | ⟨rfl, -⟩ := getElem?_set_cases hi
    · exact h.sending hge hi
    · obtain ⟨e, he⟩ := h.sending hge hs
      rw [hanswer] at he
      cases he
  obtain ⟨sent, -, rfl⟩ | ⟨e, -, rfl⟩ := hcase
  · exact { h.withManager (.of_eq rfl rfl) with sending := hkeeps }
  · exact { h with sending := hkeeps }

theorem disposes (h : a.Over b) {disposal : Nat} (hstep : b.disposeStep? disposal = some c) :
    a.Over c ∧ c = { b with disposals := b.disposals.set disposal .done } := by
  obtain ⟨x, n, y, hx, hmove, rfl⟩ := disposeStep?_eq_some hstep
  obtain ⟨rfl, rfl⟩ :=
    Disposal.step?_of_disposed h.disposed (h.disposal x (List.mem_of_getElem? hx)) hmove
  refine ⟨{ h with disposal := ?_ }, rfl⟩
  intro d hd
  rcases List.mem_or_eq_of_mem_set hd with hd | rfl
  · exact h.disposal d hd
  · exact .inr rfl

/-- The step lemma: whatever happens next, the disposal is not undone. -/
theorem step (h : a.Over b) (htended : b.Tended) {event : Event}
    (hstep : b.step? decode event = some c) : a.Over c := by
  have hclosed := htended.closed_of_cancelled h.cancelled
  obtain ⟨_, hkept⟩ := htended.kept
  cases steps_of_step? hstep with
  | dial destination =>
    refine { h with dial := ?_ }
    intro i other d hge hi
    obtain hi | ⟨-, hd⟩ := getElem?_concat_cases hi
    · exact h.dial hge hi
    · exact .inl (Prod.mk.inj hd).2
  | dialStep => exact h.dials hstep
  | read => exact (h.reads hkept hclosed hstep).1
  | send => exact h.sends hclosed hstep
  | join | fail => exact h.joins hstep
  | dispose =>
    refine { h with disposal := ?_ }
    intro d hd
    rcases List.mem_append.1 hd with hd | hd
    · exact h.disposal d hd
    · exact .inl (List.mem_singleton.1 hd)
  | disposeStep => exact (h.disposes hstep).1
  | adopt _ _ hmove => exact { h.withManager (.adoptionStep hmove) with }
  | greet | link => exact { h.withManager (.of_eq rfl rfl) with }
  | _ => exact { h with }

end Over

/-- A disposal has been through, and none is at work: all links are closed by now. -/
theorem Tended.over (h : a.Tended) (hmarked : a.Marked) (hdone : .done ∈ a.disposals)
    (hdisposal : ∀ d ∈ a.disposals, d = .start ∨ d = .done) : a.Over a := by
  obtain ⟨owners, hkept⟩ := h.kept
  have hdisposed := hmarked .done hdone nofun
  refine .refl hdisposed ((hkept.cancel hdisposed).resolve_right ?_) hdisposal
  intro hcancel
  rcases hdisposal .cancel hcancel with heq | heq <;> cases heq

/-- A manager has been disposed of: a disposal has come to its end, and none is at work. Of several at
the same time only the first does anything, so that one is through; others may return before it.
Whatever happens from then on: calls for a link that begin answer that the manager has been disposed
of; all links are closed, those too that calls still obtain which were under way; a send that begins
ends with an error and puts nothing into a queue; no read loop takes a frame from its stream, and
nobody is told anything; disposing of the manager once more changes nothing. -/
theorem disposal_final {home : Option Address} {maxFrame : Nat} {observers : Observers ω}
    {events later : List Event}
    (hrun : (idle (.observed home maxFrame observers)).run? decode events = some a)
    (hdone : .done ∈ a.disposals)
    (hdisposal : ∀ d ∈ a.disposals, d = .start ∨ d = .done)
    (hlater : a.run? decode later = some b) :
    (∀ {i : Nat} {destination : Address} {d : Dial}, a.dials.length ≤ i →
      b.dials[i]? = some (destination, d) →
        d = .answered (.error .disposed) ∨
        d = .start ∧ ∀ reach, b.step? decode (.dialStep i reach) =
          some { b with dials := b.dials.set i (destination, .answered (.error .disposed)) }) ∧
    (∀ number, b.manager.isOpen number = false) ∧ b.manager.cachedLinks = 0 ∧
    (∀ {link : Nat} {frame : Bytes} {c : Activity ω α}, b.step? decode (.send link frame) = some c →
      ∃ e, c = { b with sendings := b.sendings ++ [⟨link, frame, some (.error e)⟩] }) ∧
    (∀ {i : Nat} {s : Sending}, a.sendings.length ≤ i → b.sendings[i]? = some s →
      (∃ e, s.answer = some (.error e)) ∧ b.step? decode (.join i) = none) ∧
    (∀ {β : Type} (codec : Codec β) (number : Nat) (value : β),
      ∃ e, b.manager.post codec number value = .error e) ∧
    b.notices = a.notices ∧
    (∀ {reader : Nat} {c : Activity ω α}, b.step? decode (.read reader) = some c →
      c.notices = b.notices ∧ c.readers.map (·.inlet) = b.readers.map (·.inlet)) ∧
    (∀ {i : Nat} {c : Activity ω α}, b.step? decode (.disposeStep i) = some c →
      c = { b with disposals := b.disposals.set i .done }) ∧
    b.manager.dispose = b.manager := by
  have htended : a.Tended :=
    run?_induct (.idle home maxFrame observers) (fun h hstep => h.step hstep) hrun
  have hidle : (idle (.observed home maxFrame observers) : Activity ω α).Marked := nofun
  have hmarked : a.Marked := run?_induct hidle (fun h hstep => h.step hstep) hrun
  obtain ⟨⟨⟨owners, hkept⟩, hattended⟩, hover⟩ : b.Tended ∧ a.Over b := by
    refine run?_induct (P := fun b => b.Tended ∧ a.Over b)
      ⟨htended, htended.over hmarked hdone hdisposal⟩ ?_ hlater
    rintro event c d ⟨htended, hover⟩ hstep
    exact ⟨htended.step hstep, hover.step htended hstep⟩
  have hclosed := hkept.closed_of_cancelled hattended hover.cancelled
  have hopen : ∀ number, b.manager.isOpen number = false := by
    intro number
    cases hc : b.manager.connections[number]? with
    | none => rw [Manager.isOpen, Manager.link?, hc]; rfl
    | some c =>
      exact Manager.Shut.isOpen ⟨c, hc, hkept.manager.closed hover.cancelled hc⟩
  refine ⟨?_, hopen, Manager.cachedLinks_eq_zero hopen, ?_, ?_,
    Manager.post_of_closed hclosed, hover.notices, ?_, ?_,
    Manager.dispose_of_disposed hover.disposed⟩
  · intro i destination d hge hi
    obtain rfl | rfl := hover.dial hge hi
    · refine .inr ⟨rfl, fun reach => ?_⟩
      rw [step?, dialStep?, hi, Option.bind_eq_bind, Option.bind_some]
      dsimp only
      rw [Dial.step?_start_of_disposed hover.disposed, Option.bind_eq_bind, Option.bind_some]
      simp only [started, List.append_nil]
    · exact .inl rfl
  · intro link frame c hsend
    obtain ⟨l, hl, rfl⟩ := send?_eq_some hsend
    rw [Link.check_of_closed (hclosed.of_link? hl)]
    exact ⟨_, rfl⟩
  · intro i s hge hi
    obtain ⟨e, he⟩ := hover.sending hge hi
    refine ⟨⟨e, he⟩, Option.eq_none_iff_forall_ne_some.2 fun c hjoin => ?_⟩
    obtain ⟨s', -, hs', -, hanswer, -⟩ := join?_eq_some hjoin
    obtain rfl := Option.some.inj (hi.symm.trans hs')
    rw [hanswer] at he
    cases he
  · exact fun hstep => (hover.reads hkept hclosed hstep).2
  · exact fun hstep => (hover.disposes hstep).2

/-! ## Calls that are half finished -/

namespace Parting

def peer : Address := .v4 ⟨10, 0, 0, 2⟩ 7000

/-- The handshake of a peer that does not listen. -/
def hello : Bytes :=
  let frame := (Handshake.ofHome none).print
  Bytes.ofNat Frame.lengthWidth frame.length ++ frame

/-- A call is opening a connection and a peer has opened another one when the manager is disposed
of. -/
def parting : List Event :=
  [.dial peer, .dialStep 0 (.ok ()), .dialStep 0 (.ok ()), .dialStep 0 (.ok ()), .connect peer,
    .arrive 0 hello, .greet 0 .none false, .dispose, .disposeStep 0, .disposeStep 0, .disposeStep 0,
    .disposeStep 0]

/-- The connection is opened and the other one taken over; another call begins, and a send. -/
def aftermath : List Event :=
  [.dialStep 0 (.ok ()), .dialStep 0 (.ok ()), .adopt 0, .adopt 0, .dial peer,
    .dialStep 1 (.ok ()), .send 1 [7], .receive 0 [0, 0, 0, 0]]

def begun : Activity Unit Unit :=
  idle (.observed (some peer) 1024 (Observers.empty.observeAll ()).1)

def disposed : Activity Unit Unit :=
  (begun.run? (fun _ => .ok ()) parting).get (by decide +kernel)

def late : Activity Unit Unit :=
  (disposed.run? (fun _ => .ok ()) aftermath).get (by decide +kernel)

/-- Both links are closed, the second call is turned away, and the send fails. -/
theorem disposal_final_half_finished :
    (late.manager.connections.length = 2 ∧ late.manager.isOpen 1 = false ∧
      late.manager.cachedLinks = 0) ∧
    (∃ destination, late.dials[1]? = some (destination, .answered (.error .disposed))) ∧
    (∃ s e, late.sendings[0]? = some s ∧ s.answer = some (.error e)) ∧
    late.notices = disposed.notices ∧ late.manager.dispose = late.manager := by
  have hparting : begun.run? (fun _ => .ok ()) parting = some disposed := (Option.some_get _).symm
  have haftermath : disposed.run? (fun _ => .ok ()) aftermath = some late :=
    (Option.some_get _).symm
  obtain ⟨hdials, hopen, hcached, -, hsendings, -, hnotices, -, -, hagain⟩ :=
    disposal_final hparting (by decide +kernel) (by decide +kernel) haftermath
  refine ⟨⟨by decide +kernel, hopen 1, hcached⟩, ?_, ?_, hnotices, hagain⟩
  · obtain ⟨⟨destination, d⟩, hd⟩ :=
      Option.isSome_iff_exists.1 (by decide +kernel : late.dials[1]?.isSome = true)
    obtain rfl | ⟨rfl, -⟩ := hdials (by decide +kernel) hd
    · exact ⟨destination, hd⟩
    · have hrank : (late.dials[1]?.map (·.2.rank)) = some 0 := by decide +kernel
      rw [hd] at hrank
      cases hrank
  · obtain ⟨s, hs⟩ :=
      Option.isSome_iff_exists.1 (by decide +kernel : late.sendings[0]?.isSome = true)
    obtain ⟨⟨e, he⟩, -⟩ := hsendings (by decide +kernel) hs
    exact ⟨s, e, hs, he⟩

/-- A link is open when two disposals begin. The second returns at once, while the first has yet to
close the link. -/
def hasty : List Event :=
  [.dial peer, .dialStep 0 (.ok ()), .dialStep 0 (.ok ()), .dialStep 0 (.ok ()),
    .dialStep 0 (.ok ()), .dialStep 0 (.ok ()), .dispose, .dispose, .disposeStep 0, .disposeStep 1]

def hurried : Activity Unit Unit :=
  (begun.run? (fun _ => .ok ()) hasty).get (by decide +kernel)

/-- That a disposal has returned does not mean that all links are closed: another one may be at
work. -/
theorem returned_while_open :
    ¬ ∀ {events : List Event} {a : Activity Unit Unit},
      begun.run? (fun _ => .ok ()) events = some a → .done ∈ a.disposals →
        ∀ number, a.manager.isOpen number = false := by
  intro h
  have hhasty : begun.run? (fun _ => .ok ()) hasty = some hurried := (Option.some_get _).symm
  have hdone : .done ∈ hurried.disposals := by decide +kernel
  have hopen : hurried.manager.isOpen 0 = true := by decide +kernel
  exact Bool.false_ne_true ((h hhasty hdone 0).symm.trans hopen)

end Parting

end Activity

end Collective
