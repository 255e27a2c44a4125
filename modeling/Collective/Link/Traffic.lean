import Collective.Link.Basic

/-!
# Traffic on a link

Any number of senders use a link while its writer works and somebody may close it. Each sender makes
one call at a time, and the indivisible steps of all of them follow each other in any order. A frame
joins the queue once, at the end, and leaves it at the front: while no write fails, what has been
written and what is queued together are the frames in the order in which they joined
(`written_append_queue`).
-/

namespace Collective

/-- A link and what its senders are doing. -/
structure Traffic where
  link : Link
  /-- The frames of the senders that have been let through and have not yet joined the queue. -/
  begun : List (Nat × Bytes)
  /-- The frames that have joined the queue, with their senders, in order. -/
  joined : List (Nat × Bytes)
  /-- What the calls that have ended came to, with their frames, in order. -/
  answers : List (Nat × Bytes × Except TransportError Unit)

namespace Traffic

/-- A link that nobody has used. -/
def new (remote : Address) (maxFrame : Nat) : Traffic := ⟨.new remote maxFrame, [], [], []⟩

/-- A step of a sender or of the link. -/
inductive Event where
  /-- A sender begins to send a frame. -/
  | begin (sender : Nat) (frame : Bytes)
  /-- The frame of a sender joins the queue. -/
  | join (sender : Nat)
  | link (event : Link.Event)
  deriving DecidableEq, Repr

/-- The traffic after a call has ended. -/
def answer (t : Traffic) (sender : Nat) (frame : Bytes) (result : Except TransportError Unit) :
    Traffic :=
  { t with answers := t.answers ++ [(sender, frame, result)] }

/-- The traffic after a sender's first step. -/
def begin (t : Traffic) (sender : Nat) (frame : Bytes) : Traffic :=
  match t.link.check frame with
  | .ok () => { t with begun := (sender, frame) :: t.begun }
  | .error e => t.answer sender frame (.error e)

/-- The traffic after a sender's second step. -/
def join (t : Traffic) (sender : Nat) (frame : Bytes) : Traffic :=
  let t := { t with begun := t.begun.filter (·.1 ≠ sender) }
  match t.link.enqueue frame with
  | .ok link =>
    { t with link, joined := t.joined ++ [(sender, frame)] }.answer sender frame (.ok ())
  | .error e => t.answer sender frame (.error e)

/-- The traffic after a step, where the step can happen. -/
def step? (t : Traffic) : Event → Option Traffic
  | .begin sender frame =>
    if (t.begun.lookup sender).isSome then none else some (t.begin sender frame)
  | .join sender => (t.begun.lookup sender).map (t.join sender)
  | .link event => (t.link.step? event).map fun link => { t with link }

/-- The traffic after several steps. -/
def run? (t : Traffic) (events : List Event) : Option Traffic := events.foldlM step? t

/-! ## The order of frames -/

/-- What has been written and what is queued are the frames that have joined, in order. -/
def InOrder (t : Traffic) : Prop := t.link.written ++ t.link.queue = t.joined.map (·.2)

theorem inOrder_new (remote : Address) (maxFrame : Nat) : (new remote maxFrame).InOrder := rfl

theorem InOrder.begin {t : Traffic} (h : t.InOrder) (sender : Nat) (frame : Bytes) :
    (t.begin sender frame).InOrder := by
  rw [Traffic.begin]
  split <;> exact h

theorem InOrder.join {t : Traffic} (h : t.InOrder) (sender : Nat) (frame : Bytes) :
    (t.join sender frame).InOrder := by
  rw [InOrder] at h
  rw [InOrder, Traffic.join, Link.enqueue]
  by_cases hstopped : t.link.writer = .stopped
  · simpa [hstopped, answer] using h
  · simpa [hstopped, answer, ← List.append_assoc] using h

theorem InOrder.link {t : Traffic} {link : Link} {event : Link.Event} (h : t.InOrder)
    (hevent : event ≠ .fail) (hstep : t.link.step? event = some link) :
    { t with link := link }.InOrder := by
  rw [InOrder] at h ⊢
  cases event with
  | close =>
    cases hstep
    exact h
  | write =>
    rw [Link.step?, Link.write?] at hstep
    split at hstep
    · rename_i frame rest hqueue
      split at hstep
      · cases hstep
        simpa [hqueue] using h
      · cases hstep
    · cases hstep
  | fail => exact absurd rfl hevent
  | notice =>
    rw [Link.step?, Link.notice?] at hstep
    split at hstep
    · cases hstep
      exact h
    · cases hstep
  | drain =>
    rw [Link.step?, Link.drain?] at hstep
    split at hstep
    · cases hstep
      exact h
    · cases hstep
  | stop =>
    rw [Link.step?, Link.stop?] at hstep
    split at hstep
    · cases hstep
      exact h
    · cases hstep

theorem InOrder.step {t u : Traffic} {event : Event} (h : t.InOrder)
    (hevent : event ≠ .link .fail) (hstep : t.step? event = some u) : u.InOrder := by
  cases event with
  | begin sender frame =>
    rw [step?] at hstep
    split at hstep
    · cases hstep
    · cases hstep
      exact h.begin sender frame
  | join sender =>
    obtain ⟨frame, -, rfl⟩ := Option.map_eq_some_iff.1 hstep
    exact h.join sender frame
  | link event =>
    obtain ⟨link, hlink, rfl⟩ := Option.map_eq_some_iff.1 hstep
    exact h.link (fun he => hevent (he ▸ rfl)) hlink

/-- While no write fails, frames are written in the order in which they joined the queue. -/
theorem written_append_queue {remote : Address} {maxFrame : Nat} {events : List Event}
    {t : Traffic} (hevents : .link .fail ∉ events)
    (h : (new remote maxFrame).run? events = some t) :
    t.link.written ++ t.link.queue = t.joined.map (·.2) := by
  have inOrder : ∀ (events : List Event) (s t : Traffic), .link .fail ∉ events → s.InOrder →
      s.run? events = some t → t.InOrder := by
    intro events
    induction events with
    | nil =>
      intro s t _ hs hrun
      cases hrun
      exact hs
    | cons event events ih =>
      intro s t hnot hs hrun
      rw [List.mem_cons, not_or] at hnot
      rw [run?, List.foldlM_cons] at hrun
      obtain ⟨u, hu, hrest⟩ := Option.bind_eq_some_iff.1 hrun
      exact ih u t hnot.2 (hs.step (fun he => hnot.1 he.symm) hu) hrest
  exact inOrder events _ t hevents (inOrder_new remote maxFrame) h

end Traffic

end Collective
