import Collective.Proofs.Manager.Loop

/-!
# What comes in over a connection

A peer opens a connection, its handshake is taken, the connection is taken over and a loop reads
from it, while anything else goes on at the manager. `Inflow` notes down, beside a run, what arrives
over the connection and what observers are told of it; `Inflow.Tracks` relates the two, stage by stage.
-/

namespace Collective

/-- What has come over the connection of a peer, and what observers have been told of it. -/
structure Inflow (ω α : Type) where
  /-- All that has arrived, the handshake first. -/
  stream : Inlet
  /-- The number of the loop that reads from the connection, once it has been taken over. -/
  reader : Option Nat
  /-- What the loop has told observers. -/
  told : List (ω × Notice α)
  /-- The loop has found its link closed. -/
  cancelled : Bool

/-- A read loop that looks for the next frame would find its link closed. -/
def Activity.findsClosed {ω α : Type} (a : Activity ω α) (reader : Nat) : Bool :=
  (a.readers[reader]?).any fun r => r.reading = .next && (a.manager.link? r.link).any (·.closed)

/-- Taking over a connection goes on until it is through. -/
theorem Adoption.exists_of_step? {ω : Type} {x : Adoption} (hx : x ≠ .done) (source : Address)
    (m : Manager ω) : ∃ next, x.step? source m = some next := by
  cases x with
  | done => exact absurd rfl hx
  | _ => exact ⟨_, rfl⟩

namespace Inflow

variable {ω α : Type} {decode : Bytes → Except CodecError α} {names : Address.Resolver}
  {m : Manager ω} {number : Nat} {a b : Activity ω α} {f g : Inflow ω α}

/-- What has come before a loop reads from the connection. -/
def before (stream : Inlet) : Inflow ω α := ⟨stream, none, [], false⟩

/-- Nothing arrives behind the end of the stream. -/
def admits (f : Inflow ω α) (number : Nat) : Activity.Event → Bool
  | .arrive inbound _ => inbound ≠ number || !f.stream.ended
  | .receive reader _ => f.reader ≠ some reader || !f.stream.ended
  | _ => true

/-- What has come after a step from one activity to the next. -/
def follow (f : Inflow ω α) (number : Nat) (a b : Activity ω α) : Activity.Event → Inflow ω α
  | .arrive inbound piece =>
    if inbound = number then { f with stream := f.stream.receive piece } else f
  | .depart inbound => if inbound = number then { f with stream := f.stream.finish } else f
  | .adopt inbound =>
    if inbound = number ∧ a.readers.length < b.readers.length then
      { f with reader := some a.readers.length }
    else f
  | .receive reader piece =>
    if f.reader = some reader then { f with stream := f.stream.receive piece } else f
  | .finish reader => if f.reader = some reader then { f with stream := f.stream.finish } else f
  | .read reader =>
    if f.reader = some reader then
      { f with
        told := f.told ++ b.notices.drop a.notices.length
        cancelled := f.cancelled || a.findsClosed reader }
    else f
  | _ => f

/-- A step, with what comes of it over the connection of this number. -/
def watch? (decode : Bytes → Except CodecError α) (number : Nat)
    (x : Activity ω α × Inflow ω α) (event : Activity.Event) :
    Option (Activity ω α × Inflow ω α) :=
  if x.2.admits number event then
    (x.1.step? decode event).map fun b => (b, x.2.follow number x.1 b event)
  else none

/-- Several steps. -/
def run? (decode : Bytes → Except CodecError α) (number : Nat)
    (x : Activity ω α × Inflow ω α) (events : List Activity.Event) :
    Option (Activity ω α × Inflow ω α) :=
  events.foldlM (watch? decode number) x

theorem watch?_eq_some {x y : Activity ω α × Inflow ω α} {event : Activity.Event}
    (h : watch? decode number x event = some y) : x.2.admits number event = true ∧
      x.1.step? decode event = some y.1 ∧ y.2 = x.2.follow number x.1 y.1 event := by
  rw [watch?] at h
  split at h
  · next hadmits =>
    obtain ⟨b, hstep, rfl⟩ := Option.map_eq_some_iff.1 h
    exact ⟨hadmits, hstep, rfl⟩
  · cases h

/-! ## Stages -/

/-- How far the connection of a peer has come, by what has arrived over it and what observers have
been told. -/
inductive Tracks (decode : Bytes → Except CodecError α) (names : Address.Resolver) (m : Manager ω)
    (number : Nat) (a : Activity ω α) (f : Inflow ω α) : Prop
  | absent (hi : a.inbounds[number]? = none) (hf : f = before .start) :
      Tracks decode names m number a f
  | greeting {peer : Address} {s : Inlet}
      (hi : a.inbounds[number]? = some ⟨peer, s, .greeting⟩) (hf : f = before s) :
      Tracks decode names m number a f
  | refused {peer : Address} {s left : Inlet} {e : TransportError}
      (hi : a.inbounds[number]? = some ⟨peer, left, .refused e⟩) (hf : f = before s)
      (hnone : ∀ (shake : Handshake) (rest : Bytes), ¬ shake.Opens names m.maxFrame s.buffer rest) :
      Tracks decode names m number a f
  | abandoned {peer : Address} {s : Inlet}
      (hi : a.inbounds[number]? = some ⟨peer, s, .abandoned⟩) (hf : f = before s) :
      Tracks decode names m number a f
  | adopting {peer : Address} {s left : Inlet} {shake : Handshake} {x : Adoption}
      (hi : a.inbounds[number]? =
        some ⟨peer, left, .adopting (shake.address.getD peer) x⟩)
      (hx : x ≠ .done) (hf : f = before s)
      (hopens : shake.Opens names m.maxFrame s.buffer left.buffer)
      (hended : left.ended = s.ended) : Tracks decode names m number a f
  | reading {peer : Address} {left : Inlet} {shake : Handshake} {rest : Bytes} {reader : Nat}
      {r : Reader}
      (hi : a.inbounds[number]? =
        some ⟨peer, left, .adopting (shake.address.getD peer) .done⟩)
      (hreader : f.reader = some reader) (hr : a.readers[reader]? = some r)
      (hsource : r.source = shake.address.getD peer)
      (hopens : shake.Opens names m.maxFrame f.stream.buffer rest)
      (hfollows : r.Follows decode m (shake.address.getD peer) ⟨rest, f.stream.ended⟩ f.told
        f.cancelled) : Tracks decode names m number a f

namespace Tracks

/-- A step of something else changes nothing. -/
theorem congr (h : Tracks decode names m number a f) (hi : b.inbounds[number]? = a.inbounds[number]?)
    (hr : ∀ {reader : Nat}, f.reader = some reader →
      ∀ {r : Reader}, a.readers[reader]? = some r → b.readers[reader]? = some r) :
    Tracks decode names m number b f := by
  cases h with
  | absent hold hf => exact .absent (hi.trans hold) hf
  | greeting hold hf => exact .greeting (hi.trans hold) hf
  | refused hold hf hnone => exact .refused (hi.trans hold) hf hnone
  | abandoned hold hf => exact .abandoned (hi.trans hold) hf
  | adopting hold hx hf hopens hended => exact .adopting (hi.trans hold) hx hf hopens hended
  | reading hold hreader hold' hsource hopens hfollows =>
    exact .reading (hi.trans hold) hreader (hr hreader hold') hsource hopens hfollows

/-- Another connection gets into another state. -/
theorem putInbound (h : Tracks decode names m number a f) {other : Nat} (hne : other ≠ number)
    (inbound : Inbound) : Tracks decode names m number (a.putInbound other inbound) f :=
  h.congr (List.getElem?_set_ne hne) fun _ _ hr => hr

/-- Another read loop gets into another state. -/
theorem setReader (h : Tracks decode names m number a f) {other : Nat} {r : Reader}
    (hne : f.reader ≠ some other) (hi : b.inbounds = a.inbounds)
    (hr : b.readers = a.readers.set other r) : Tracks decode names m number b f := by
  refine h.congr (hi ▸ rfl) fun {reader} hreader _ hold => ?_
  have hother : other ≠ reader := by
    rintro rfl
    exact hne hreader
  rw [hr, List.getElem?_set_ne hother, hold]

/-- More read loops begin. -/
theorem addReaders (h : Tracks decode names m number a f) {readers : List Reader}
    (hi : b.inbounds[number]? = a.inbounds[number]?) (hr : b.readers = a.readers ++ readers) :
    Tracks decode names m number b f := by
  refine h.congr hi fun _ _ hold => ?_
  rw [hr, List.getElem?_append_left (List.getElem?_eq_some_iff.1 hold).1, hold]

theorem connect (h : Tracks decode names m number a f) (peer : Address) :
    Tracks decode names m number { a with inbounds := a.inbounds ++ [⟨peer, .start, .greeting⟩] } f := by
  rcases Nat.lt_or_ge number a.inbounds.length with hlt | hge
  · exact h.congr (List.getElem?_append_left hlt) fun _ _ hr => hr
  · have hnone : a.inbounds[number]? = none := List.getElem?_eq_none hge
    cases h with
    | absent _ hf =>
      rcases Nat.eq_or_lt_of_le hge with heq | hlt
      · have hnew : (a.inbounds ++ [⟨peer, .start, .greeting⟩])[number]? =
            some ⟨peer, .start, .greeting⟩ := by rw [← heq, List.getElem?_concat_length]
        exact .greeting hnew hf
      · refine .absent (List.getElem?_eq_none ?_) hf
        rw [List.length_append, List.length_singleton]
        exact hlt
    | _ hi => cases hnone.symm.trans hi

/-- Something comes over the connection before its handshake is taken. -/
theorem arrive (h : Tracks decode names m number a f) {i : Inbound}
    (hi : a.inbounds[number]? = some i) (hstage : i.stage = .greeting) (change : Inlet → Inlet) :
    Tracks decode names m number (a.putInbound number { i with inlet := change i.inlet })
      { f with stream := change f.stream } := by
  have hlt := (List.getElem?_eq_some_iff.1 hi).1
  cases h with
  | absent hnone => cases hnone.symm.trans hi
  | greeting hsame hf =>
    obtain rfl := Option.some.inj (hsame.symm.trans hi)
    subst hf
    exact .greeting (List.getElem?_set_self hlt) rfl
  | refused hsame | abandoned hsame | adopting hsame | reading hsame =>
    obtain rfl := Option.some.inj (hsame.symm.trans hi)
    cases hstage

/-- Something else has come than a handshake, or nothing in time. -/
theorem refuse (h : Tracks decode names m number a f) {i : Inbound} (hi : a.inbounds[number]? = some i)
    (hstage : i.stage = .greeting) {late : Bool} {e : TransportError}
    (haccept : Link.accept? names late i.peer m.maxFrame i.inlet = some (.error e)) :
    Tracks decode names m number (a.putInbound number { i with stage := .refused e }) f := by
  have hlt := (List.getElem?_eq_some_iff.1 hi).1
  cases h with
  | absent hnone => cases hnone.symm.trans hi
  | @greeting peer s hsame hf =>
    obtain rfl := Option.some.inj (hsame.symm.trans hi)
    refine .refused (List.getElem?_set_self hlt) hf fun shake rest hopens => ?_
    cases (Link.accept?_of_opens hopens late peer).symm.trans haccept
  | refused hsame | abandoned hsame | adopting hsame | reading hsame =>
    obtain rfl := Option.some.inj (hsame.symm.trans hi)
    cases hstage

/-- The handshake is taken. -/
theorem greet (h : Tracks decode names m number a f) {i : Inbound} (hi : a.inbounds[number]? = some i)
    (hstage : i.stage = .greeting) {late : Bool} {link : Link} {inlet : Inlet}
    (haccept : Link.accept? names late i.peer m.maxFrame i.inlet = some (.ok (link, inlet)))
    {n : Manager ω} {made : Nat} :
    Tracks decode names m number ({ a with manager := n }.putInbound number
      { i with inlet, stage := .adopting link.remote (.look made) }) f := by
  have hlt := (List.getElem?_eq_some_iff.1 hi).1
  cases h with
  | absent hnone => cases hnone.symm.trans hi
  | greeting hsame hf =>
    obtain rfl := Option.some.inj (hsame.symm.trans hi)
    obtain ⟨shake, hopens, hended, rfl⟩ := Link.exists_of_accept? haccept
    exact .adopting (List.getElem?_set_self hlt) nofun hf hopens hended
  | refused hsame | abandoned hsame | adopting hsame | reading hsame =>
    obtain rfl := Option.some.inj (hsame.symm.trans hi)
    cases hstage

/-- The connection is dropped. -/
theorem abandon (h : Tracks decode names m number a f) {i : Inbound}
    (hi : a.inbounds[number]? = some i) (hstage : i.stage = .greeting) :
    Tracks decode names m number (a.putInbound number { i with stage := .abandoned }) f := by
  have hlt := (List.getElem?_eq_some_iff.1 hi).1
  cases h with
  | absent hnone => cases hnone.symm.trans hi
  | greeting hsame hf =>
    obtain rfl := Option.some.inj (hsame.symm.trans hi)
    exact .abandoned (List.getElem?_set_self hlt) hf
  | refused hsame | abandoned hsame | adopting hsame | reading hsame =>
    obtain rfl := Option.some.inj (hsame.symm.trans hi)
    cases hstage

/-- Taking over the connection goes on; its last step starts the loop. -/
theorem adopt (h : Tracks decode names m number a f) {i : Inbound} (hi : a.inbounds[number]? = some i)
    {source : Address} {x y : Adoption} (hstage : i.stage = .adopting source x) {n : Manager ω}
    (hmove : x.step? source a.manager = some (n, y))
    (hb : b = { a with
      manager := n
      readers := a.readers ++ Activity.adopted source i.inlet x }.putInbound number
        { i with stage := .adopting source y }) :
    Tracks decode names m number b
      (if a.readers.length < b.readers.length then { f with reader := some a.readers.length }
        else f) := by
  have hlt := (List.getElem?_eq_some_iff.1 hi).1
  subst hb
  cases h with
  | absent hnone => cases hnone.symm.trans hi
  | @adopting peer s left shake z hsame hx hf hopens hended =>
    obtain rfl := Option.some.inj (hsame.symm.trans hi)
    obtain ⟨rfl, rfl⟩ := Inbound.Stage.adopting.inj hstage
    subst hf
    cases z with
    | look link =>
      obtain ⟨-, rfl⟩ := Prod.mk.inj (Option.some.inj hmove)
      rw [if_neg (by simp [Activity.adopted, Activity.putInbound])]
      exact .adopting (List.getElem?_set_self hlt) (by simp) rfl hopens hended
    | store link cell =>
      obtain ⟨-, rfl⟩ := Prod.mk.inj (Option.some.inj hmove)
      rw [if_pos (by simp [Activity.adopted, Activity.putInbound])]
      have hreads : Inlet.Reads decode m.maxFrame [] [] := .nil
      exact .reading (List.getElem?_set_self hlt) rfl List.getElem?_concat_length rfl hopens
        (.along rfl rfl rfl hended.symm hreads rfl)
    | done => exact absurd rfl hx
  | reading hsame =>
    obtain rfl := Option.some.inj (hsame.symm.trans hi)
    obtain ⟨-, rfl⟩ := Inbound.Stage.adopting.inj hstage
    cases hmove
  | greeting hsame | refused hsame | abandoned hsame =>
    obtain rfl := Option.some.inj (hsame.symm.trans hi)
    cases hstage

/-- The stage at which a loop reads from the connection. -/
theorem exists_follows (h : Tracks decode names m number a f) {reader : Nat}
    (hreader : f.reader = some reader) :
    ∃ (peer : Address) (left : Inlet) (shake : Handshake) (rest : Bytes) (r : Reader),
      a.inbounds[number]? = some ⟨peer, left, .adopting (shake.address.getD peer) .done⟩ ∧
        a.readers[reader]? = some r ∧ r.source = shake.address.getD peer ∧
          shake.Opens names m.maxFrame f.stream.buffer rest ∧
            r.Follows decode m (shake.address.getD peer) ⟨rest, f.stream.ended⟩ f.told
              f.cancelled := by
  cases h with
  | reading hi hother hr hsource hopens hfollows =>
    obtain rfl := Option.some.inj (hother.symm.trans hreader)
    exact ⟨_, _, _, _, _, hi, hr, hsource, hopens, hfollows⟩
  | absent _ hf | greeting _ hf | refused _ hf | abandoned _ hf | adopting _ _ hf =>
    rw [hf] at hreader
    cases hreader

theorem receive (h : Tracks decode names m number a f) {reader : Nat} {r : Reader}
    (hreader : f.reader = some reader) (hr : a.readers[reader]? = some r)
    (hended : f.stream.ended = false) (piece : Bytes) :
    Tracks decode names m number
      { a with readers := a.readers.set reader { r with inlet := r.inlet.receive piece } }
      { f with stream := f.stream.receive piece } := by
  obtain ⟨_, _, _, _, _, hi, hsame, hsource, hopens, hfollows⟩ := h.exists_follows hreader
  obtain rfl := Option.some.inj (hr.symm.trans hsame)
  have hlt := (List.getElem?_eq_some_iff.1 hr).1
  exact .reading hi hreader (List.getElem?_set_self hlt) hsource (hopens.append piece)
    (hfollows.receive hended piece)

theorem finish (h : Tracks decode names m number a f) {reader : Nat} {r : Reader}
    (hreader : f.reader = some reader) (hr : a.readers[reader]? = some r) :
    Tracks decode names m number
      { a with readers := a.readers.set reader { r with inlet := r.inlet.finish } }
      { f with stream := f.stream.finish } := by
  obtain ⟨_, _, _, _, _, hi, hsame, hsource, hopens, hfollows⟩ := h.exists_follows hreader
  obtain rfl := Option.some.inj (hr.symm.trans hsame)
  have hlt := (List.getElem?_eq_some_iff.1 hr).1
  exact .reading hi hreader (List.getElem?_set_self hlt) hsource hopens hfollows.finish

/-- The loop goes on. -/
theorem read (h : Tracks decode names m number a f) {reader : Nat} {r : Reader}
    (hreader : f.reader = some reader) (hr : a.readers[reader]? = some r)
    (hmax : a.manager.maxFrame = m.maxFrame)
    (hobservers : (a.manager.link? r.link).any (·.closed) = false →
      a.manager.observers = m.observers) {outcome : Reading.Outcome ω α}
    (hmove : r.reading.step? decode r.source r.link
      ((r.inlet.offer? a.manager.maxFrame).map (·.1)) a.manager = some outcome) :
    Tracks decode names m number
      { a with
        manager := outcome.manager
        readers := a.readers.set reader { r with
          inlet := if outcome.took then
            ((r.inlet.offer? a.manager.maxFrame).map (·.2)).getD r.inlet else r.inlet
          reading := outcome.reading }
        notices := a.notices ++ outcome.notices }
      { f with
        told := f.told ++ (a.notices ++ outcome.notices).drop a.notices.length
        cancelled := f.cancelled || a.findsClosed reader } := by
  obtain ⟨_, _, _, _, _, hi, hsame, hsource, hopens, hfollows⟩ := h.exists_follows hreader
  obtain rfl := Option.some.inj (hr.symm.trans hsame)
  have hlt := (List.getElem?_eq_some_iff.1 hr).1
  refine .reading hi hreader (List.getElem?_set_self hlt) hsource hopens ?_
  have hnext := hfollows.read hmax hobservers (hsource ▸ hmove)
  rw [List.drop_left, Activity.findsClosed, hr]
  exact hnext

/-- No loop reads from a connection whose handshake has not been taken. -/
theorem reader_eq_none (h : Tracks decode names m number a f) {i : Inbound}
    (hi : a.inbounds[number]? = some i) (hstage : i.stage = .greeting) : f.reader = none := by
  cases h with
  | absent hnone => cases hnone.symm.trans hi
  | greeting _ hf => exact hf ▸ rfl
  | refused hsame | abandoned hsame | adopting hsame | reading hsame =>
    obtain rfl := Option.some.inj (hsame.symm.trans hi)
    cases hstage

/-- The step lemma: whatever happens next at the manager. If it is that the handshake is taken,
`names` is what names stand for at this time. -/
theorem step (h : Tracks decode names m number a f) (htended : a.Tended) (hhears : a.Hears m)
    {event : Activity.Event}
    (hnames : f.reader = none → ∀ {other : Address.Resolver} {late : Bool},
      event = .greet number other late → other = names)
    (hadmits : f.admits number event = true) (hstep : a.step? decode event = some b) :
    Tracks decode names m number b (f.follow number a b event) := by
  have hmax := hhears.maxFrame
  cases Activity.steps_of_step? hstep with
  | dialStep => exact h.addReaders rfl rfl
  | connect peer => exact h.connect peer
  | @arrive inbound i piece hi hstage =>
    rw [follow]
    split
    · next hsame => exact hsame ▸ h.arrive (hsame ▸ hi) hstage (·.receive piece)
    · next hne => exact h.putInbound hne _
  | @depart inbound i hi hstage =>
    rw [follow]
    split
    · next hsame => exact hsame ▸ h.arrive (hsame ▸ hi) hstage Inlet.finish
    · next hne => exact h.putInbound hne _
  | @refuse inbound other late i e hi hstage haccept =>
    by_cases hsame : inbound = number
    · subst hsame
      obtain rfl := hnames (h.reader_eq_none hi hstage) rfl
      exact h.refuse hi hstage (hmax ▸ haccept)
    · exact h.putInbound hsame _
  | @abandon inbound i hi hstage =>
    by_cases hsame : inbound = number
    · exact hsame ▸ h.abandon (hsame ▸ hi) hstage
    · exact h.putInbound hsame _
  | @greet inbound other late i link inlet hi hstage haccept =>
    by_cases hsame : inbound = number
    · subst hsame
      obtain rfl := hnames (h.reader_eq_none hi hstage) rfl
      exact h.greet hi hstage (hmax ▸ haccept)
    · exact h.congr (List.getElem?_set_ne hsame) fun _ _ hr => hr
  | @adopt inbound i source x y n hi hstage hmove =>
    rw [follow]
    by_cases hsame : inbound = number
    · subst hsame
      simp only [true_and]
      exact h.adopt hi hstage hmove rfl
    · -- The loop that may start here reads from another connection.
      rw [if_neg fun hboth => hsame hboth.1]
      exact h.addReaders (List.getElem?_set_ne hsame) rfl
  | @receive reader r piece hr =>
    rw [follow]
    by_cases hreader : f.reader = some reader
    · rw [admits, hreader] at hadmits
      rw [if_pos hreader]
      exact h.receive hreader hr (by simpa using hadmits) piece
    · rw [if_neg hreader]
      exact h.setReader hreader rfl rfl
  | @finish reader r hr =>
    rw [follow]
    by_cases hreader : f.reader = some reader
    · rw [if_pos hreader]
      exact h.finish hreader hr
    · rw [if_neg hreader]
      exact h.setReader hreader rfl rfl
  | @read reader r outcome hr hmove =>
    rw [follow]
    by_cases hreader : f.reader = some reader
    · rw [if_pos hreader]
      exact h.read hreader hr hmax
        (hhears.observers_of_open htended (List.mem_of_getElem? hr)) hmove
    · rw [if_neg hreader]
      exact h.setReader hreader rfl rfl
  | _ => exact h.congr rfl fun _ _ hr => hr

/-- The connection has been taken over, so this does not happen again. -/
theorem adopt?_eq_none (h : Tracks decode names m number a f) {reader : Nat}
    (hreader : f.reader = some reader) : a.adopt? number = none := by
  obtain ⟨_, _, _, _, _, hi, -, -, -, -⟩ := h.exists_follows hreader
  rw [Activity.adopt?, hi]
  rfl

/-! ### Before a loop reads from the connection -/

/-- Where no handshake has come, nobody is told anything. -/
theorem silent_of_not_opens (h : Tracks decode names m number a f)
    (hnone : ∀ (shake : Handshake) (rest : Bytes),
      ¬ shake.Opens names m.maxFrame f.stream.buffer rest) : f.reader = none ∧ f.told = [] := by
  cases h with
  | reading _ _ _ _ hopens => exact absurd hopens (hnone _ _)
  | absent _ hf | greeting _ hf | refused _ hf | abandoned _ hf | adopting _ _ hf =>
    exact hf ▸ ⟨rfl, rfl⟩

/-- A handshake that has come is taken, be it `late` or not, and the connection taken over, unless
it has been dropped. -/
theorem goes_on (h : Tracks decode names m number a f) (hmax : a.manager.maxFrame = m.maxFrame)
    {shake : Handshake} {rest : Bytes} (hopens : shake.Opens names m.maxFrame f.stream.buffer rest)
    (hreader : f.reader = none) : f.told = [] ∧
      ((∀ late, (a.step? decode (.greet number names late)).isSome) ∨
        (a.step? decode (.adopt number)).isSome ∨
        ∃ i, a.inbounds[number]? = some i ∧ i.stage = .abandoned) := by
  cases h with
  | absent hi hf =>
    obtain ⟨first, -, hbuffer, -⟩ := hopens
    rw [hf] at hbuffer
    cases hbuffer
  | @greeting peer s hi hf =>
    subst hf
    refine ⟨rfl, .inl fun late => ?_⟩
    have haccept : Link.accept? names late peer m.maxFrame s = _ :=
      Link.accept?_of_opens hopens late peer
    rw [Activity.step?, Activity.greet?, hi, Option.bind_eq_bind, Option.bind_some, if_pos rfl,
      hmax]
    dsimp only
    rw [haccept]
    rfl
  | refused hi hf hnone =>
    subst hf
    exact absurd hopens (hnone _ _)
  | abandoned hi hf => exact ⟨hf ▸ rfl, .inr (.inr ⟨_, hi, rfl⟩)⟩
  | @adopting peer s left other x hi hx hf =>
    subst hf
    obtain ⟨⟨n, y⟩, hmove⟩ := Adoption.exists_of_step? hx (other.address.getD peer) a.manager
    refine ⟨rfl, .inr (.inl ?_)⟩
    rw [Activity.step?, Activity.adopt?, hi, Option.bind_eq_bind, Option.bind_some]
    dsimp only
    rw [hmove]
    rfl
  | reading hi hother => cases hreader.symm.trans hother

end Tracks

/-! ## When the loop has left the stream -/

/-- A loop has left the stream, and this is what observers have been told. -/
def Settled (told : List (ω × Notice α)) (a : Activity ω α) (f : Inflow ω α) : Prop :=
  f.told = told ∧ ∃ reader r, f.reader = some reader ∧ a.readers[reader]? = some r ∧
    r.reading ≠ .next

/-- The step lemma: nobody is told anything more. -/
theorem Settled.step {told : List (ω × Notice α)} (h : Settled told a f)
    (htracks : Tracks decode names m number a f) {event : Activity.Event}
    (hstep : a.step? decode event = some b) : Settled told b (f.follow number a b event) := by
  obtain ⟨htold, reader, r, hreader, hr, hreading⟩ := h
  obtain ⟨s, hs, hsleft⟩ := Activity.left_of_step? hr hreading hstep
  suffices hf : (f.follow number a b event).told = f.told ∧
      (f.follow number a b event).reader = f.reader from
    ⟨hf.1.trans htold, reader, s, hf.2.trans hreader, hs, hsleft⟩
  cases event with
  | adopt inbound =>
    rw [follow]
    split
    · next hboth =>
      obtain ⟨rfl, -⟩ := hboth
      cases (htracks.adopt?_eq_none hreader).symm.trans hstep
    · exact ⟨rfl, rfl⟩
  | read other =>
    rw [follow]
    split
    · next hsame =>
      obtain rfl := Option.some.inj (hsame.symm.trans hreader)
      obtain ⟨q, outcome, hq, hmove, rfl⟩ := Activity.read?_eq_some hstep
      obtain rfl := Option.some.inj (hr.symm.trans hq)
      have hsilent := (Reading.silent_of_step? hreading hmove).2
      refine ⟨?_, rfl⟩
      dsimp only
      rw [List.drop_left, hsilent, List.append_nil]
    · exact ⟨rfl, rfl⟩
  | arrive other _ | depart other | receive other _ | finish other =>
    rw [follow]
    split <;> exact ⟨rfl, rfl⟩
  | _ => exact ⟨rfl, rfl⟩

/-! ## What observers are told -/

/-- What is so of a manager at work and the connection of this number. -/
structure Watched (decode : Bytes → Except CodecError α) (names : Address.Resolver) (m : Manager ω)
    (number : Nat) (x : Activity ω α × Inflow ω α) : Prop where
  tended : x.1.Tended
  hears : x.1.Hears m
  closes : x.1.Closes
  tracks : Tracks decode names m number x.1 x.2
  /-- Connections are dropped only once the manager has been cancelled. -/
  dropped : ∀ {i : Inbound}, x.1.inbounds[number]? = some i → i.stage = .abandoned →
    x.1.manager.cancelled = true

theorem watched_idle (hm : m = .observed m.home m.maxFrame m.observers) :
    Watched decode names m number (.idle m, before .start) where
  tended := by
    rw [hm]
    exact .idle m.home m.maxFrame m.observers
  hears := Activity.hears_idle m
  closes := nofun
  tracks := .absent rfl rfl
  dropped := nofun

theorem Watched.step {x y : Activity ω α × Inflow ω α} (h : Watched decode names m number x)
    {event : Activity.Event}
    (hnames : x.2.reader = none → ∀ {other : Address.Resolver} {late : Bool},
      event = .greet number other late → other = names)
    (hstep : watch? decode number x event = some y) : Watched decode names m number y := by
  obtain ⟨hadmits, hmove, hf⟩ := watch?_eq_some hstep
  obtain ⟨_, hkept⟩ := h.tended.kept
  refine ⟨h.tended.step hmove, h.hears.step hkept hmove, h.closes.step h.tended hmove, ?_, ?_⟩
  · rw [hf]
    exact h.tracks.step h.tended h.hears hnames hadmits hmove
  · intro j hj hstage
    have hstays := (Activity.succeeds_of_step? hmove).cancelled
    obtain hcancelled | ⟨i, hi, hbefore⟩ := Activity.abandoned_of_step? hmove hj hstage
    · exact hstays hcancelled
    · exact hstays (h.dropped hi hbefore)

/-- Once a loop has left the stream, nobody is told anything more, whatever happens. -/
theorem Watched.told_eq {x y : Activity ω α × Inflow ω α} (h : Watched decode names m number x)
    {told : List (ω × Notice α)} (hsettled : Settled told x.1 x.2) {later : List Activity.Event}
    (hrun : run? decode number x later = some y) : y.2.told = told := by
  have hboth : Watched decode names m number y ∧ Settled told y.1 y.2 := by
    refine foldlM_induct
      (P := fun y => Watched decode names m number y ∧ Settled told y.1 y.2) ⟨h, hsettled⟩ ?_ hrun
    rintro event y z ⟨hwatched, hsettled⟩ hstep
    obtain ⟨-, hmove, hf⟩ := watch?_eq_some hstep
    -- The handshake has long been taken.
    have hreading : y.2.reader ≠ none := by
      obtain ⟨-, reader, -, hreader, -⟩ := hsettled
      exact hreader ▸ nofun
    refine ⟨hwatched.step (fun hnone => absurd hnone hreading) hstep, ?_⟩
    rw [hf]
    exact hsettled.step hwatched.tracks hmove
  exact hboth.2.1

/-- Whatever happens at a manager meanwhile, and in whichever pieces a stream arrives over the
connection of a peer, this is what observers are told of it; `names` is what names stand for when
the handshake is taken.

As long as no handshake has arrived, and if something else has arrived in its place or nothing in
time, no loop reads from the connection and nobody is told anything. Otherwise a loop is started,
unless the manager is cancelled and the connection dropped, and all that it tells is attributed to
the address in the handshake, or to the peer itself. What is behind the handshake brings messages,
the ones in its first frames, up to the first that cannot be decoded. The loop tells observers these
messages, in order and each of them once; when it leaves the stream it tells the observer bound to
the source why the stream has failed, if it has. If it has found its link closed, it has told a first
part of the messages, and nothing else. It does not stop before: when it cannot go on it has left the
stream, or has told all messages there are and more may arrive. A loop that has left the stream
closes its link, and tells nobody anything any more. -/
theorem told_what_stream_brings {events : List Activity.Event}
    (hm : m = .observed m.home m.maxFrame m.observers)
    (hnames : ∀ {other : Address.Resolver} {late : Bool}, .greet number other late ∈ events →
      other = names)
    (hrun : run? decode number (.idle m, before .start) events = some (a, f)) :
    ((∀ (shake : Handshake) (rest : Bytes), ¬ shake.Opens names m.maxFrame f.stream.buffer rest) →
      f.reader = none ∧ f.told = []) ∧
    ∀ {shake : Handshake} {rest : Bytes}, shake.Opens names m.maxFrame f.stream.buffer rest →
      (f.reader = none → f.told = [] ∧
        ((∀ late, (a.step? decode (.greet number names late)).isSome) ∨
          (a.step? decode (.adopt number)).isSome ∨
          a.manager.cancelled = true ∧
            ∃ inbound, a.inbounds[number]? = some inbound ∧ inbound.stage = .abandoned)) ∧
      ∀ {reader : Nat}, f.reader = some reader → ∃ inbound r values ending,
        a.inbounds[number]? = some inbound ∧ a.readers[reader]? = some r ∧
        r.source = shake.address.getD inbound.peer ∧
        Inlet.Brings decode m.maxFrame ⟨rest, f.stream.ended⟩ values ending ∧
        (r.reading = .next ∨ f.cancelled = true →
          ∃ n, f.told = (values.take n).flatMap (m.dispatch r.source)) ∧
        (r.reading ≠ .next → f.cancelled = false → ending ≠ .waiting ∧
          f.told = values.flatMap (m.dispatch r.source) ++ m.conclude r.source ending) ∧
        (a.step? decode (.read reader) = none → r.reading = .done ∨ r.reading = .next ∧
          ending = .waiting ∧ f.told = values.flatMap (m.dispatch r.source)) ∧
        (r.reading = .evict ∨ r.reading = .done → a.manager.isOpen r.link = false) ∧
        (r.reading ≠ .next → ∀ {later : List Activity.Event} {b : Activity ω α} {g : Inflow ω α},
          run? decode number (a, f) later = some (b, g) → g.told = f.told) := by
  have hwatched : Watched decode names m number (a, f) := by
    refine foldlM_induct_of_mem (watched_idle hm) ?_ hrun
    exact fun hevent h hstep => h.step (fun _ _ _ heq => hnames (heq ▸ hevent)) hstep
  have hmax : a.manager.maxFrame = m.maxFrame := hwatched.hears.maxFrame
  refine ⟨hwatched.tracks.silent_of_not_opens, fun {shake rest} hopens => ?_⟩
  refine ⟨fun hreader => ?_, fun {reader} hreader => ?_⟩
  · obtain ⟨htold, hgoes⟩ := hwatched.tracks.goes_on hmax hopens hreader
    refine ⟨htold, hgoes.imp_right fun hlater => hlater.imp_right fun habandoned => ?_⟩
    obtain ⟨i, hi, hstage⟩ := habandoned
    exact ⟨hwatched.dropped hi hstage, i, hi, hstage⟩
  obtain ⟨peer, left, shake', rest', r, hi, hr, hsource, hopens', hfollows⟩ :=
    hwatched.tracks.exists_follows hreader
  obtain ⟨rfl, rfl⟩ := hopens.unique hopens'
  rw [← hsource] at hfollows
  obtain ⟨values, ending, hbrings⟩ :=
    Inlet.exists_brings decode m.maxFrame ⟨rest, f.stream.ended⟩
  refine ⟨_, r, values, ending, hi, hr, hsource, hbrings, hfollows.told_of_left hbrings,
    hfollows.told_of_ended hbrings, ?_, ?_, ?_⟩
  · intro hstuck
    have hnone := Activity.step?_of_read?_eq_none hr hstuck
    rw [hmax] at hnone
    obtain hdone | ⟨hnext, hoffer⟩ := Reading.eq_of_step?_eq_none hnone
    · exact .inl hdone
    · exact .inr ⟨hnext, hfollows.told_of_waits hbrings hnext (Option.map_eq_none_iff.1 hoffer)⟩
  · exact fun hclosed => (hwatched.closes r (List.mem_of_getElem? hr) hclosed).isOpen
  · exact fun hreading _ _ _ hlater =>
      hwatched.told_eq ⟨rfl, reader, r, hreader, hr, hreading⟩ hlater

/-! ## A frame that cannot be decoded -/

namespace Arrival

/-- The peer's end of the connection. -/
def peer : Address := .v4 ⟨10, 0, 0, 2⟩ 49152

/-- Where the peer listens. -/
def home : Address := .v4 ⟨10, 0, 0, 2⟩ 7000

/-- One host is known by name; it has two addresses. -/
def hosts : Address.Resolver := fun host port =>
  if host = "worker" then some [.v4 ⟨10, 0, 0, 2⟩ port, .v4 ⟨10, 0, 0, 3⟩ port] else none

/-- The peer names its host. -/
def greeting : Bytes := Utf8.encode "\x7b\"version\":1,\"address\":\"worker:7000\"\x7d"

def shake : Handshake := .ofHome (some home)

/-- One observer hears of the peer, the other one of all messages. -/
def manager : Manager Nat :=
  .observed (some peer) 64 ((Observers.empty.observe home 1).1.observeAll 2).1

/-- Messages are single bytes. -/
def byte : Bytes → Except CodecError Nat := Codec.word 1 "a byte"

/-- The first frame and a part of the second arrive together with the handshake. The third frame is
empty, and another one arrives behind it. -/
def arriving : List Activity.Event :=
  [.connect peer, .arrive 0 (Frame.wire greeting ++ [0, 0, 0, 1, 7, 0]), .greet 0 hosts false,
    .adopt 0, .adopt 0, .read 0, .receive 0 [0, 0, 1, 8, 0, 0, 0, 0], .read 0,
    .receive 0 [0, 0, 0, 1, 9], .read 0, .read 0, .read 0]

def watched : Activity Nat Nat × Inflow Nat Nat :=
  (run? byte 0 (.idle manager, before .start) arriving).get (by decide +kernel)

/-- The peer goes on all the same. -/
def late : Activity Nat Nat × Inflow Nat Nat :=
  (run? byte 0 watched [.receive 0 [0, 0, 0, 1, 10], .finish 0]).get (by decide +kernel)

def rest : Bytes := [0, 0, 0, 1, 7, 0, 0, 0, 1, 8, 0, 0, 0, 0, 0, 0, 0, 1, 9]

/-- Two messages are brought, and then a frame that cannot be decoded. -/
theorem brings : Inlet.Brings byte 64 ⟨rest, false⟩ [7, 8]
    (.failed (.serialization (.decode (.width 1 "a byte" 0)))) := by
  have hfits : ∀ word : UInt8, Frame.Fits 64 [word] := fun _ => ⟨by simp, by simp⟩
  have hreads : Inlet.Reads byte 64 [[7], [8]] [7, 8] :=
    .cons ⟨hfits 7, rfl⟩ (.cons ⟨hfits 8, rfl⟩ .nil)
  have hstops : Inlet.Stops byte 64 ⟨Frame.wire [] ++ [0, 0, 0, 1, 9], false⟩
      (.failed (.serialization (.decode (.width 1 "a byte" 0)))) :=
    .undecodable rfl ⟨by decide, by decide⟩ rfl
  exact ⟨_, _, rfl, hreads, hstops⟩

/-- Both observers hear of the two messages, and one of them of the failure. Nothing is told of the
frames behind it. -/
theorem told_what_stream_brings_bad_frame :
    watched.2.told = [(1, .value 7), (2, .message home 7), (1, .value 8), (2, .message home 8),
      (1, .failure (.serialization (.decode (.width 1 "a byte" 0))))] ∧
    watched.1.manager.isOpen 0 = false ∧ late.2.told = watched.2.told := by
  have hrun : run? byte 0 (.idle manager, before .start) arriving =
      some (watched.1, watched.2) := by
    rw [Prod.eta]
    exact (Option.some_get _).symm
  have hlate : run? byte 0 (watched.1, watched.2) [.receive 0 [0, 0, 0, 1, 10], .finish 0] =
      some (late.1, late.2) := by
    rw [Prod.eta, Prod.eta]
    exact (Option.some_get _).symm
  have hopens : shake.Opens hosts 64 watched.2.stream.buffer rest :=
    ⟨greeting, ⟨by decide +kernel, by decide +kernel⟩, by decide +kernel, by decide +kernel⟩
  have hnames : ∀ {other : Address.Resolver} {late : Bool}, .greet 0 other late ∈ arriving →
      other = hosts := by simp [arriving]
  have hended : watched.2.stream.ended = false := by decide +kernel
  have hreader : watched.2.reader = some 0 := by decide +kernel
  obtain ⟨-, hbrings⟩ := told_what_stream_brings rfl hnames hrun
  obtain ⟨-, hreading⟩ := hbrings hopens
  obtain ⟨inbound, r, values, ending, hinbound, hr, hsource, hvalues, -, htells, -, hclosed,
    hsettled⟩ := hreading hreader
  rw [hended] at hvalues
  obtain ⟨rfl, rfl⟩ := hvalues.unique brings
  have hdone : (watched.1.readers[0]?.map (·.reading)) = some .done := by decide +kernel
  have hlink : (watched.1.readers[0]?.map (·.link)) = some 0 := by decide +kernel
  rw [hr, Option.map_some, Option.some.injEq] at hdone hlink
  have hhome : r.source = home := by
    rw [hsource]
    rfl
  have hleft : r.reading ≠ .next := hdone ▸ nofun
  obtain ⟨-, htold⟩ := htells hleft (by decide +kernel)
  refine ⟨?_, hlink ▸ hclosed (.inr hdone), hsettled hleft hlate⟩
  rw [htold, hhome]
  rfl

end Arrival

end Inflow

end Collective
