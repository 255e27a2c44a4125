import Collective.Proofs.Link.Content
import Collective.Proofs.Manager.Hearing

/-!
# Read loops

The side that accepts a connection takes a handshake off its stream, and leaves all that is behind
it to a read loop. The loop takes one frame after another; `Reader.Follows` relates what has arrived to
what observers have been told, and whatever arrives and whatever the loop does keeps it.
-/

namespace Collective

open Collective.Frame

/-! ## Handshakes -/

section

variable {names : Address.Resolver} {max : Nat} {buffer rest more : Bytes} {shake : Handshake}
  {peer : Address} {i : Inlet}

/-- A buffer begins with a handshake, and this is behind it. -/
def Handshake.Opens (shake : Handshake) (names : Address.Resolver) (max : Nat)
    (buffer rest : Bytes) : Prop :=
  ∃ first, Fits max first ∧ buffer = wire first ++ rest ∧ Handshake.read names first = .ok shake

theorem Handshake.Opens.append (h : shake.Opens names max buffer rest) (more : Bytes) :
    shake.Opens names max (buffer ++ more) (rest ++ more) := by
  obtain ⟨first, hfits, hbuffer, hread⟩ := h
  exact ⟨first, hfits, by rw [hbuffer, List.append_assoc], hread⟩

theorem Handshake.Opens.unique (h : shake.Opens names max buffer rest) {other : Handshake}
    {later : Bytes} (g : other.Opens names max buffer later) : shake = other ∧ rest = later := by
  obtain ⟨first, hfits, rfl, hread⟩ := h
  obtain ⟨first', hfits', hbuffer, hread'⟩ := g
  have hnext := next_wire_append hfits rest
  rw [hbuffer, next_wire_append hfits'] at hnext
  obtain ⟨rfl, rfl⟩ := Next.frame.inj hnext
  exact ⟨Except.ok.inj (hread.symm.trans hread'), rfl⟩

/-- A handshake that has arrived is taken, and nothing else with it. -/
theorem Link.accept?_of_opens (h : shake.Opens names max i.buffer rest) (late : Bool)
    (peer : Address) : accept? names late peer max i =
      some (.ok (.new (shake.address.getD peer) max, ⟨rest, i.ended⟩)) := by
  obtain ⟨first, hfits, hbuffer, hread⟩ := h
  have hnext := next_wire_append hfits rest
  rw [← hbuffer] at hnext
  rw [accept?, Inlet.offer?_of_next_frame hnext]
  dsimp only
  rw [hread]

theorem Link.exists_of_accept? {late : Bool} {link : Link} {left : Inlet}
    (h : accept? names late peer max i = some (.ok (link, left))) : ∃ shake : Handshake,
      shake.Opens names max i.buffer left.buffer ∧ left.ended = i.ended ∧
        link = .new (shake.address.getD peer) max := by
  obtain ⟨frame, shake, hoffer, hread, hlink⟩ := accept?_eq_ok h
  obtain ⟨hfits, hbuffer, hended⟩ := Inlet.offer?_eq_frame hoffer
  exact ⟨shake, ⟨frame, hfits, hbuffer, hread⟩, hended, hlink⟩

end

/-! ## Read loops -/

namespace Manager

variable {ω α : Type}

/-- Who is told what when a stream comes to an end. -/
def conclude (m : Manager ω) (source : Address) : Ending → List (ω × Notice α)
  | .failed e => m.report source e
  | _ => []

end Manager

/-- A loop that has left its stream tells nobody anything. -/
theorem Reading.silent_of_step? {ω α : Type} {decode : Bytes → Except CodecError α}
    {source : Address} {link : Nat} {offer : Option Offer} {m : Manager ω} {r : Reading}
    {outcome : Outcome ω α} (hr : r ≠ .next)
    (h : r.step? decode source link offer m = some outcome) :
    outcome.reading ≠ .next ∧ outcome.notices = [] := by
  cases r with
  | next => exact absurd rfl hr
  | done => cases h
  | _ =>
    cases h
    exact ⟨nofun, rfl⟩

/-- The last thing that a loop does is to evict its link. -/
theorem Reading.eq_evict_of_step? {ω α : Type} {decode : Bytes → Except CodecError α}
    {source : Address} {link : Nat} {offer : Option Offer} {m : Manager ω} {r : Reading}
    {outcome : Outcome ω α} (h : r.step? decode source link offer m = some outcome)
    (hdone : outcome.reading = .done) : r = .evict := by
  cases r with
  | evict => rfl
  | done => cases h
  | close =>
    cases h
    cases hdone
  | next =>
    obtain ⟨-, rfl⟩ | ⟨-, ⟨-, rfl⟩ | ⟨_, -, rfl⟩ | ⟨_, _, -, -, rfl⟩ | ⟨_, _, -, -, rfl⟩⟩ :=
      next_eq_some h <;> cases hdone

/-- A loop that cannot go on is through, or waits for a frame. -/
theorem Reading.eq_of_step?_eq_none {ω α : Type} {decode : Bytes → Except CodecError α}
    {source : Address} {link : Nat} {offer : Option Offer} {m : Manager ω} {r : Reading}
    (h : r.step? decode source link offer m = none) : r = .done ∨ r = .next ∧ offer = none := by
  cases r with
  | done => exact .inl rfl
  | next =>
    simp only [step?] at h
    split at h
    · cases h
    · split at h
      · exact .inr ⟨rfl, rfl⟩
      · cases h
      · cases h
      · split at h <;> cases h
  | _ => cases h

/-- How far a loop has come that reads what a source sends, given all that has arrived behind the
handshake and all that observers have been told. As long as the loop goes on, what it has yet to
take is in front of it; in the end it has found its link closed, or has come to the end of the
stream. -/
inductive Reader.Follows {ω α : Type} (decode : Bytes → Except CodecError α) (m : Manager ω)
    (source : Address) (s : Inlet) (r : Reader) (told : List (ω × Notice α)) (cancelled : Bool) :
    Prop
  | along {frames : List Bytes} {values : List α} (hreading : r.reading = .next)
      (hcancelled : cancelled = false) (hbuffer : s.buffer = wires frames ++ r.inlet.buffer)
      (hended : s.ended = r.inlet.ended) (hreads : Inlet.Reads decode m.maxFrame frames values)
      (htold : told = values.flatMap (m.dispatch source)) :
      Follows decode m source s r told cancelled
  | cut {frames : List Bytes} {left : Bytes} {values : List α} (hreading : r.reading ≠ .next)
      (hcancelled : cancelled = true) (hbuffer : s.buffer = wires frames ++ left)
      (hreads : Inlet.Reads decode m.maxFrame frames values)
      (htold : told = values.flatMap (m.dispatch source)) :
      Follows decode m source s r told cancelled
  | ended {values : List α} {ending : Ending} (hreading : r.reading ≠ .next)
      (hcancelled : cancelled = false) (hbrings : s.Brings decode m.maxFrame values ending)
      (hending : ending ≠ .waiting)
      (htold : told = values.flatMap (m.dispatch source) ++ m.conclude source ending) :
      Follows decode m source s r told cancelled

namespace Reader.Follows

variable {ω α : Type} {decode : Bytes → Except CodecError α} {m n : Manager ω} {source : Address}
  {s : Inlet} {r : Reader} {told : List (ω × Notice α)} {cancelled : Bool}

theorem receive (h : r.Follows decode m source s told cancelled) (hended : s.ended = false)
    (piece : Bytes) :
    Follows decode m source (s.receive piece) { r with inlet := r.inlet.receive piece } told
      cancelled := by
  cases h with
  | along hreading hcancelled hbuffer hsame hreads htold =>
    refine .along hreading hcancelled ?_ hsame hreads htold
    rw [Inlet.receive, hbuffer, List.append_assoc]
    rfl
  | @cut frames left values hreading hcancelled hbuffer hreads htold =>
    have hgrown : (s.receive piece).buffer = wires frames ++ (left ++ piece) := by
      rw [Inlet.receive, hbuffer, List.append_assoc]
    exact .cut hreading hcancelled hgrown hreads htold
  | ended hreading hcancelled hbrings hending htold =>
    exact .ended hreading hcancelled (hbrings.grow hended hending piece s.ended) hending htold

theorem finish (h : r.Follows decode m source s told cancelled) :
    Follows decode m source s.finish { r with inlet := r.inlet.finish } told cancelled := by
  cases h with
  | along hreading hcancelled hbuffer hsame hreads htold =>
    exact .along hreading hcancelled hbuffer rfl hreads htold
  | cut hreading hcancelled hbuffer hreads htold =>
    exact .cut hreading hcancelled hbuffer hreads htold
  | ended hreading hcancelled hbrings hending htold =>
    refine .ended hreading hcancelled ?_ hending htold
    cases hended : s.ended with
    | true =>
      have hsame : s.finish = s := by rw [Inlet.finish, ← hended]
      rwa [hsame]
    | false =>
      have hgrown := hbrings.grow hended hending [] true
      rwa [List.append_nil] at hgrown

/-- The step lemma: the loop goes on. While the link is open, the manager tells whom it told at
first. -/
theorem read (h : r.Follows decode m source s told cancelled) (hmax : n.maxFrame = m.maxFrame)
    (hobservers : (n.link? r.link).any (·.closed) = false → n.observers = m.observers)
    {outcome : Reading.Outcome ω α}
    (hstep : r.reading.step? decode source r.link ((r.inlet.offer? n.maxFrame).map (·.1)) n =
      some outcome) :
    Follows decode m source s
      { r with
        inlet := if outcome.took then ((r.inlet.offer? n.maxFrame).map (·.2)).getD r.inlet
          else r.inlet
        reading := outcome.reading }
      (told ++ outcome.notices)
      (cancelled || r.reading = .next && (n.link? r.link).any (·.closed)) := by
  cases h with
  | cut hreading hcancelled hbuffer hreads htold =>
    obtain ⟨hleft, hsilent⟩ := Reading.silent_of_step? hreading hstep
    rw [hsilent, List.append_nil, hcancelled, Bool.true_or]
    exact .cut hleft rfl hbuffer hreads htold
  | ended hreading hcancelled hbrings hending htold =>
    obtain ⟨hleft, hsilent⟩ := Reading.silent_of_step? hreading hstep
    rw [hsilent, List.append_nil, hcancelled, decide_eq_false hreading]
    exact .ended hleft rfl hbrings hending htold
  | @along frames values hreading hcancelled hbuffer hended hreads htold =>
    rw [hreading] at hstep
    rw [hmax] at hstep ⊢
    rw [hcancelled, hreading, decide_eq_true rfl, Bool.false_or, Bool.true_and]
    obtain ⟨hclosed, rfl⟩ | ⟨hopen, hcase⟩ := Reading.next_eq_some hstep
    · rw [hclosed]
      exact .cut nofun rfl hbuffer hreads (by rw [htold, List.append_nil])
    · rw [hopen]
      have hsame := hobservers hopen
      -- What stops the stream in front of the loop stops the whole stream.
      have hwhole : ∀ {ending : Ending}, r.inlet.Stops decode m.maxFrame ending →
          s.Brings decode m.maxFrame values ending := fun hstops => by
        have hbrings := hstops.brings.append hbuffer hended hreads
        rwa [List.append_nil] at hbrings
      rcases hcase with ⟨hoffer, rfl⟩ | ⟨fault, hoffer, rfl⟩ |
        ⟨content, message, hoffer, hdecode, rfl⟩ | ⟨content, e, hoffer, hdecode, rfl⟩
      · have hstops : r.inlet.Stops decode m.maxFrame .finished :=
          Inlet.stops_of_offer? (by rw [hoffer]; rfl)
        exact .ended nofun rfl (hwhole hstops) nofun (by rw [htold]; rfl)
      · have hstops : r.inlet.Stops decode m.maxFrame (.failed (Link.streamError fault)) :=
          Inlet.stops_of_offer? (by rw [hoffer]; rfl)
        refine .ended nofun rfl (hwhole hstops) nofun ?_
        rw [htold, Manager.report_congr hsame]
        rfl
      · obtain ⟨⟨_, left⟩, hfull, rfl⟩ := Option.map_eq_some_iff.1 hoffer
        obtain ⟨hfits, hfront, hleft⟩ := Inlet.offer?_eq_frame hfull
        have hread : Inlet.Reads decode m.maxFrame [content] [message] :=
          .cons ⟨hfits, hdecode⟩ .nil
        rw [hfull]
        refine .along rfl rfl ?_ (hended.trans hleft.symm) (List.rel_append hreads hread) ?_
        · rw [hbuffer, hfront]
          simp
        · rw [htold, Manager.dispatch_congr hsame]
          simp
      · obtain ⟨⟨_, left⟩, hfull, rfl⟩ := Option.map_eq_some_iff.1 hoffer
        obtain ⟨hfits, hfront, -⟩ := Inlet.offer?_eq_frame hfull
        refine .ended nofun rfl (hwhole (.undecodable hfront hfits hdecode)) nofun ?_
        rw [htold, Manager.report_congr hsame]
        rfl

/-! ## What observers have been told -/

/-- While the loop goes on, and when it has found its link closed, observers have been told the
first messages that the stream brings. -/
theorem told_of_left (h : r.Follows decode m source s told cancelled) {values : List α}
    {ending : Ending} (hbrings : s.Brings decode m.maxFrame values ending)
    (hleft : r.reading = .next ∨ cancelled = true) :
    ∃ n, told = (values.take n).flatMap (m.dispatch source) := by
  have hfirst : ∀ {frames : List Bytes} {left : Inlet} {first : List α},
      s.buffer = wires frames ++ left.buffer → s.ended = left.ended →
        Inlet.Reads decode m.maxFrame frames first → first = values.take first.length := by
    intro frames left first hbuffer hended hreads
    obtain ⟨later, other, hlater⟩ := Inlet.exists_brings decode m.maxFrame left
    obtain ⟨rfl, -⟩ := hbrings.unique (hlater.append hbuffer hended hreads)
    rw [List.take_left]
  cases h with
  | along _ _ hbuffer hended hreads htold =>
    exact ⟨_, htold.trans (congrArg _ (hfirst hbuffer hended hreads))⟩
  | @cut frames left first _ _ hbuffer hreads htold =>
    have hsame : s.buffer = wires frames ++ (⟨left, s.ended⟩ : Inlet).buffer := hbuffer
    exact ⟨_, htold.trans (congrArg _ (hfirst hsame rfl hreads))⟩
  | ended hreading hcancelled =>
    rw [hcancelled] at hleft
    rcases hleft with hnext | hfalse
    · exact absurd hnext hreading
    · cases hfalse

/-- When the loop has come to the end of the stream, observers have been told all messages that the
stream brings, and why it has ended if it has failed. -/
theorem told_of_ended (h : r.Follows decode m source s told cancelled) {values : List α}
    {ending : Ending} (hbrings : s.Brings decode m.maxFrame values ending)
    (hreading : r.reading ≠ .next) (hcancelled : cancelled = false) :
    ending ≠ .waiting ∧
      told = values.flatMap (m.dispatch source) ++ m.conclude source ending := by
  cases h with
  | along hnext => exact absurd hnext hreading
  | cut _ htrue => cases hcancelled.symm.trans htrue
  | ended _ _ hsame hending htold =>
    obtain ⟨rfl, rfl⟩ := hbrings.unique hsame
    exact ⟨hending, htold⟩

/-- When the loop waits for a frame, observers have been told all messages there are. -/
theorem told_of_waits (h : r.Follows decode m source s told cancelled) {values : List α}
    {ending : Ending} (hbrings : s.Brings decode m.maxFrame values ending)
    (hreading : r.reading = .next) (hoffer : r.inlet.offer? m.maxFrame = none) :
    ending = .waiting ∧ told = values.flatMap (m.dispatch source) := by
  have hwaits : r.inlet.Stops decode m.maxFrame .waiting :=
    Inlet.stops_of_offer? (by rw [hoffer]; rfl)
  cases h with
  | along _ _ hbuffer hended hreads htold =>
    obtain ⟨rfl, rfl⟩ := hbrings.unique (hwaits.brings.append hbuffer hended hreads)
    rw [List.append_nil]
    exact ⟨rfl, htold⟩
  | cut hne => exact absurd hreading hne
  | ended hne => exact absurd hreading hne

end Reader.Follows

/-! ## Loops that have left their streams -/

/-- A loop that has left its stream never comes back to it. -/
theorem Activity.left_of_step? {ω α : Type} {decode : Bytes → Except CodecError α}
    {a b : Activity ω α} {reader : Nat} {r : Reader} (hr : a.readers[reader]? = some r)
    (hleft : r.reading ≠ .next) {event : Event} (hstep : a.step? decode event = some b) :
    ∃ s, b.readers[reader]? = some s ∧ s.reading ≠ .next := by
  have hlt := (List.getElem?_eq_some_iff.1 hr).1
  obtain ⟨more, hmore, -⟩ | ⟨other, q, s, hq, hset, -, hcase⟩ := readers_of_step? hstep
  · exact ⟨r, by rw [hmore, List.getElem?_append_left hlt, hr], hleft⟩
  · by_cases hsame : other = reader
    · subst hsame
      obtain rfl := Option.some.inj (hr.symm.trans hq)
      refine ⟨s, by rw [hset, List.getElem?_set_self hlt], ?_⟩
      obtain hsame | ⟨-, _, _, hmove, hmoved⟩ := hcase
      · rwa [hsame]
      · rw [hmoved]
        exact (Reading.silent_of_step? hleft hmove).1
    · exact ⟨r, by rw [hset, List.getElem?_set_ne hsame, hr], hleft⟩

/-- The links that loops have closed are closed. -/
def Activity.Closes {ω α : Type} (a : Activity ω α) : Prop :=
  ∀ r ∈ a.readers, r.reading = .evict ∨ r.reading = .done → a.manager.Shut r.link

theorem Activity.Closes.step {ω α : Type} {decode : Bytes → Except CodecError α}
    {a b : Activity ω α} (h : a.Closes) (htended : a.Tended) {event : Event}
    (hstep : a.step? decode event = some b) : b.Closes := by
  obtain ⟨_, hkept⟩ := htended.kept
  obtain ⟨_, hnext, hadvances⟩ := hkept.step hstep
  have hstays : ∀ r ∈ a.readers, r.reading = .evict ∨ r.reading = .done →
      b.manager.Shut r.link := fun r hr hclosed => hadvances.persists.shut (h r hr hclosed)
  intro s hs hclosed
  rcases hclosed with hevict | hdone
  · exact (hnext.reader s hs).shut hevict
  · obtain ⟨more, hmore, hnew⟩ | ⟨number, r, t, hr, hset, hlink, hcase⟩ := readers_of_step? hstep
    · rw [hmore] at hs
      rcases List.mem_append.1 hs with hold | hlast
      · exact hstays s hold (.inr hdone)
      · cases (hnew s hlast).symm.trans hdone
    · rw [hset] at hs
      rcases List.mem_or_eq_of_mem_set hs with hold | rfl
      · exact hstays s hold (.inr hdone)
      · have hmem := List.mem_of_getElem? hr
        rw [hlink]
        obtain hsame | ⟨-, _, outcome, hmove, hmoved⟩ := hcase
        · exact hstays r hmem (.inr (hsame ▸ hdone))
        · exact hstays r hmem (.inl (Reading.eq_evict_of_step? hmove (hmoved ▸ hdone)))

end Collective
