import Mathlib.Data.List.Induction
import Collective.Link.Traffic

/-!
# Sending over a link

A frame joins the queue of a link once, at its end, and the writer takes frames from the front. The
writer of a link stops only after the link has been closed and its queue has been found empty
(`Traffic.Since.flushed`), and over a closed link only the senders that have been let through before
can still put a frame into the queue (`Traffic.Since.late`). `Traffic.Accounts` keeps count of the
calls: those of one sender are the ones that have ended, in order, and the one under way.
-/

namespace Collective

namespace Link

variable {l m : Link}

/-! ## Steps of a writer -/

theorem write?_eq_some (h : l.write? = some m) : ∃ frame rest, l.queue = frame :: rest ∧
    Writer.takes l.writer = true ∧
      m = { l with queue := rest, written := l.written ++ [frame] } := by
  rw [write?] at h
  split at h
  · next frame rest hqueue =>
    split at h
    · next htakes => exact ⟨frame, rest, hqueue, htakes, (Option.some.inj h).symm⟩
    · cases h
  · cases h

theorem fail?_eq_some (h : l.fail? = some m) : ∃ frame rest, l.queue = frame :: rest ∧
    m = { l with queue := rest, closed := true, writer := .leaving } := by
  rw [fail?] at h
  split at h
  · next frame rest hqueue =>
    split at h
    · exact ⟨frame, rest, hqueue, (Option.some.inj h).symm⟩
    · cases h
  · cases h

theorem notice?_eq_some (h : l.notice? = some m) :
    l.writer = .running ∧ l.closed = true ∧ m = { l with writer := .flushing } := by
  rw [notice?] at h
  split at h
  · next hnotice => exact ⟨hnotice.1, hnotice.2, (Option.some.inj h).symm⟩
  · cases h

theorem drain?_eq_some (h : l.drain? = some m) :
    l.writer = .flushing ∧ l.queue = [] ∧ m = { l with writer := .leaving } := by
  rw [drain?] at h
  split at h
  · next hdrain => exact ⟨hdrain.1, hdrain.2, (Option.some.inj h).symm⟩
  · cases h

theorem stop?_eq_some (h : l.stop? = some m) :
    l.writer = .leaving ∧ m = { l with writer := .stopped } := by
  rw [stop?] at h
  split at h
  · next hleaving => exact ⟨hleaving, (Option.some.inj h).symm⟩
  · cases h

theorem enqueue_eq_ok {frame : Bytes} (h : l.enqueue frame = .ok m) :
    l.writer ≠ .stopped ∧ m = { l with queue := l.queue ++ [frame] } := by
  rw [enqueue] at h
  split at h
  · cases h
  · next hwriter => exact ⟨hwriter, (Except.ok.inj h).symm⟩

/-- Over a closed link a call ends with its first step. -/
theorem check_of_closed (h : l.closed = true) (frame : Bytes) :
    l.check frame = .error (if l.maxFrame < frame.length then
      .frameTooLarge frame.length l.maxFrame else .connectionClosed l.remote) := by
  rw [check, if_pos h]
  split <;> rfl

/-- While no write fails, only closing closes a link. -/
theorem closed_iff_of_step? {event : Event} (hevent : event ≠ .fail)
    (h : l.step? event = some m) : m.closed = true ↔ l.closed = true ∨ event = .close := by
  cases event with
  | close =>
    obtain rfl := Option.some.inj h
    simp [close]
  | write =>
    obtain ⟨_, _, -, -, rfl⟩ := write?_eq_some h
    simp
  | fail => exact absurd rfl hevent
  | notice =>
    obtain ⟨-, -, rfl⟩ := notice?_eq_some h
    simp
  | drain =>
    obtain ⟨-, -, rfl⟩ := drain?_eq_some h
    simp
  | stop =>
    obtain ⟨-, rfl⟩ := stop?_eq_some h
    simp

/-- The writer of an open link takes frames. -/
def Attended (l : Link) : Prop := l.writer = .running ∨ l.closed = true

namespace Attended

theorem new (remote : Address) (maxFrame : Nat) : (Link.new remote maxFrame).Attended := .inl rfl

theorem enqueue {frame : Bytes} (h : l.Attended) (hm : l.enqueue frame = .ok m) :
    m.Attended := by
  obtain ⟨-, rfl⟩ := enqueue_eq_ok hm
  exact h

theorem step {event : Event} (h : l.Attended) (hm : l.step? event = some m) : m.Attended := by
  cases event with
  | close =>
    obtain rfl := Option.some.inj hm
    exact .inr rfl
  | write =>
    obtain ⟨_, _, -, -, rfl⟩ := write?_eq_some hm
    exact h
  | fail =>
    obtain ⟨_, _, -, rfl⟩ := fail?_eq_some hm
    exact .inr rfl
  | notice =>
    obtain ⟨-, hclosed, rfl⟩ := notice?_eq_some hm
    exact .inr hclosed
  | drain =>
    obtain ⟨hwriter, -, rfl⟩ := drain?_eq_some hm
    exact .inr (h.resolve_left (by simp [hwriter]))
  | stop =>
    obtain ⟨hwriter, rfl⟩ := stop?_eq_some hm
    exact .inr (h.resolve_left (by simp [hwriter]))

/-- Such a link is closed only if it has been closed, be its writer there or not. -/
theorem isClosed_eq (h : l.Attended) : l.isClosed = l.closed := by
  rw [isClosed]
  rcases h with hwriter | hclosed
  · simp [hwriter]
  · rw [hclosed, Bool.true_or]

end Attended

end Link

namespace Traffic

variable {s t u : Traffic} {event : Event} {sender other : Nat} {frame : Bytes}

/-! ## Calls -/

/-- The frames that a sender has begun to send, in order. -/
def callsOf (sender : Nat) (events : List Event) : List Bytes :=
  events.filterMap fun
    | .begin other frame => if other = sender then some frame else none
    | _ => none

/-- The frame of a sender that has been let through and has not yet joined the queue. -/
def pending (t : Traffic) (sender : Nat) : List Bytes := (t.begun.lookup sender).toList

/-- The frame of a call that has succeeded, with its sender. -/
def accepted? : Nat × Bytes × Except TransportError Unit → Option (Nat × Bytes)
  | (sender, frame, .ok ()) => some (sender, frame)
  | (_, _, .error _) => none

/-- The frames that have been written, with their senders. -/
def sent (t : Traffic) : List (Nat × Bytes) := t.joined.take t.link.written.length

/-- The frames of one sender among those of all. -/
def framesOf (sender : Nat) (frames : List (Nat × Bytes)) : List Bytes :=
  (frames.filter (·.1 = sender)).map (·.2)

theorem framesOf_append (frames later : List (Nat × Bytes)) :
    framesOf sender (frames ++ later) = framesOf sender frames ++ framesOf sender later := by
  rw [framesOf, List.filter_append, List.map_append, ← framesOf, ← framesOf]

theorem framesOf_singleton (other sender : Nat) (frame : Bytes) :
    framesOf other [(sender, frame)] = if other = sender then [frame] else [] := by
  by_cases h : other = sender
  · simp [framesOf, h]
  · simp [framesOf, h, Ne.symm h]

theorem callsOf_append_singleton (events : List Event) (event : Event) :
    callsOf sender (events ++ [event]) =
      callsOf sender events ++ match event with
        | .begin other frame => if other = sender then [frame] else []
        | _ => [] := by
  rw [callsOf, List.filterMap_append, ← callsOf]
  cases event with
  | begin other frame =>
    by_cases h : other = sender
    · simp [h]
    · simp [h]
  | join other => rfl
  | link event => rfl

theorem lookup_filter_ne (begun : List (Nat × Bytes)) (sender other : Nat) :
    (begun.filter (·.1 ≠ sender)).lookup other =
      if other = sender then none else begun.lookup other := by
  induction begun with
  | nil => split <;> rfl
  | cons entry begun ih =>
    obtain ⟨key, frame⟩ := entry
    by_cases hkey : key = sender
    · subst hkey
      rw [List.filter_cons_of_neg (by simp), ih]
      split
      · rfl
      · next hother => rw [List.lookup_cons, beq_false_of_ne hother]
    · rw [List.filter_cons_of_pos (by simpa using hkey), List.lookup_cons, List.lookup_cons, ih]
      by_cases hother : other = key
      · subst hother
        simp [hkey]
      · rw [beq_false_of_ne hother]

/-- The frame of a sender joins the queue, or the call of the sender fails because the writer is
gone. -/
theorem join_cases (t : Traffic) (sender : Nat) (frame : Bytes) :
    ∃ link joined result, t.join sender frame =
        { link, begun := t.begun.filter (·.1 ≠ sender), joined := t.joined ++ joined,
          answers := t.answers ++ [(sender, frame, result)] } ∧
      (t.link.enqueue frame = .ok link ∧ joined = [(sender, frame)] ∧ result = .ok () ∨
        link = t.link ∧ joined = [] ∧ ∃ e, result = .error e) := by
  rw [join]
  dsimp only
  cases henqueue : t.link.enqueue frame with
  | ok link => exact ⟨link, [(sender, frame)], .ok (), rfl, .inl ⟨rfl, rfl, rfl⟩⟩
  | error e =>
    refine ⟨t.link, [], .error e, ?_, .inr ⟨rfl, rfl, e, rfl⟩⟩
    rw [List.append_nil]
    rfl

/-- A call is let through, or ends with an error. -/
theorem begin_cases (t : Traffic) (sender : Nat) (frame : Bytes) :
    t.link.check frame = .ok () ∧
        t.begin sender frame = { t with begun := (sender, frame) :: t.begun } ∨
      ∃ e, t.link.check frame = .error e ∧
        t.begin sender frame = t.answer sender frame (.error e) := by
  rw [Traffic.begin]
  cases t.link.check frame with
  | ok _ => exact .inl ⟨rfl, rfl⟩
  | error e => exact .inr ⟨e, rfl, rfl⟩

/-- What can happen to the traffic on a link. -/
theorem step?_eq_some (h : t.step? event = some u) :
    (∃ sender frame, event = .begin sender frame ∧ t.begun.lookup sender = none ∧
        u = t.begin sender frame) ∨
      (∃ sender frame, event = .join sender ∧ t.begun.lookup sender = some frame ∧
        u = t.join sender frame) ∨
      ∃ linkEvent link, event = .link linkEvent ∧ t.link.step? linkEvent = some link ∧
        u = { t with link } := by
  cases event with
  | begin sender frame =>
    rw [step?] at h
    split at h
    · cases h
    · next hidle =>
      exact .inl ⟨sender, frame, rfl, by rwa [Option.not_isSome_iff_eq_none] at hidle,
        (Option.some.inj h).symm⟩
  | join sender =>
    obtain ⟨frame, hframe, rfl⟩ := Option.map_eq_some_iff.1 h
    exact .inr (.inl ⟨sender, frame, rfl, hframe, rfl⟩)
  | link linkEvent =>
    obtain ⟨link, hlink, rfl⟩ := Option.map_eq_some_iff.1 h
    exact .inr (.inr ⟨linkEvent, link, rfl, hlink, rfl⟩)

/-- The frames that have joined are those of the calls that have succeeded, and the calls of each
sender have ended, in order, but for the last one. -/
structure Accounts (events : List Event) (t : Traffic) : Prop where
  joined : t.joined = t.answers.filterMap accepted?
  calls : ∀ sender, callsOf sender events =
    (t.answers.filter (·.1 = sender)).map (·.2.1) ++ t.pending sender

namespace Accounts

theorem new (remote : Address) (maxFrame : Nat) : Accounts [] (.new remote maxFrame) where
  joined := rfl
  calls _ := rfl

theorem step {events : List Event} (h : Accounts events t) (hstep : t.step? event = some u) :
    Accounts (events ++ [event]) u := by
  obtain ⟨sender, frame, rfl, hidle, rfl⟩ | ⟨sender, frame, rfl, hframe, rfl⟩ |
    ⟨linkEvent, link, rfl, -, rfl⟩ := step?_eq_some hstep
  · obtain ⟨-, hbegin⟩ | ⟨e, -, hbegin⟩ := t.begin_cases sender frame
    · rw [hbegin]
      refine ⟨h.joined, fun other => ?_⟩
      rw [callsOf_append_singleton, h.calls, pending, pending, List.lookup_cons]
      by_cases hother : other = sender
      · subst hother
        simp [hidle]
      · simp [beq_false_of_ne hother, Ne.symm hother]
    · rw [hbegin]
      refine ⟨?_, fun other => ?_⟩
      · simp [answer, h.joined, accepted?]
      · rw [callsOf_append_singleton, h.calls]
        by_cases hother : other = sender
        · subst hother
          simp [answer, pending, hidle]
        · simp [answer, pending, Ne.symm hother]
  · obtain ⟨link, joined, result, hjoin, hcase⟩ := t.join_cases sender frame
    rw [hjoin]
    refine ⟨?_, fun other => ?_⟩
    · obtain ⟨-, rfl, rfl⟩ | ⟨-, rfl, e, rfl⟩ := hcase
      · simp [h.joined, accepted?]
      · simp [h.joined, accepted?]
    · rw [callsOf_append_singleton, h.calls, List.append_nil, pending, pending,
        lookup_filter_ne]
      by_cases hother : other = sender
      · subst hother
        simp [hframe]
      · simp [hother, Ne.symm hother]
  · refine ⟨h.joined, fun other => ?_⟩
    rw [callsOf_append_singleton, h.calls, List.append_nil]
    rfl

/-- The frames of a sender that have joined the queue are among its calls, in their order. -/
theorem framesOf_joined {events : List Event} (h : Accounts events t) (sender : Nat) :
    (framesOf sender t.joined).Sublist (callsOf sender events) := by
  rw [h.calls, h.joined]
  refine List.Sublist.trans ?_ (List.sublist_append_left _ _)
  induction t.answers with
  | nil => exact .slnil
  | cons answer answers ih =>
    obtain ⟨other, frame, result⟩ := answer
    rw [← List.singleton_append, List.filterMap_append, framesOf_append, List.filter_append,
      List.map_append]
    refine List.Sublist.append ?_ ih
    cases result with
    | error e => exact List.nil_sublist _
    | ok _ =>
      by_cases hother : other = sender
      · simp [framesOf, accepted?, hother]
      · simp [framesOf, accepted?, hother]

end Accounts

/-! ## From one moment to a later one -/

/-- The second of two moments in the traffic on a link is later than the first, and no write has
failed. If the link was open in the first, a writer that takes no more frames has written all that
had joined by then. If the link was closed, the frames that have joined since are among those that
had been let through. -/
structure Since (s t : Traffic) : Prop where
  joined : s.joined <+: t.joined
  closed : s.link.closed = true → t.link.closed = true
  flushed : s.link.closed = false → Link.Writer.takes t.link.writer = false →
    s.joined.length ≤ t.link.written.length
  late : s.link.closed = true → ∀ sender,
    (framesOf sender (t.joined.drop s.joined.length) ++ t.pending sender).Sublist
      (s.pending sender)

namespace Since

theorem refl (h : s.link.Attended) : s.Since s where
  joined := List.prefix_rfl
  closed := id
  flushed hopen htakes := by
    rw [h.resolve_right (by simp [hopen])] at htakes
    cases htakes
  late _ sender := by
    rw [List.drop_length]
    exact .refl _

/-- A call begins. -/
theorem begin (h : s.Since t) (sender : Nat) (frame : Bytes) : s.Since (t.begin sender frame) := by
  obtain ⟨hcheck, hbegin⟩ | ⟨e, -, hbegin⟩ := t.begin_cases sender frame
  · rw [hbegin]
    refine ⟨h.joined, h.closed, h.flushed, fun hclosed => ?_⟩
    rw [Link.check_of_closed (h.closed hclosed)] at hcheck
    cases hcheck
  · rw [hbegin]
    exact ⟨h.joined, h.closed, h.flushed, h.late⟩

/-- A call comes to its end. -/
theorem join (h : s.Since t) (hframe : t.begun.lookup sender = some frame) :
    s.Since (t.join sender frame) := by
  obtain ⟨link, joined, result, hjoin, hcase⟩ := t.join_cases sender frame
  have hlink : link.closed = t.link.closed ∧ link.writer = t.link.writer ∧
      link.written = t.link.written := by
    obtain ⟨henqueue, -⟩ | ⟨rfl, -⟩ := hcase
    · obtain ⟨-, rfl⟩ := Link.enqueue_eq_ok henqueue
      exact ⟨rfl, rfl, rfl⟩
    · exact ⟨rfl, rfl, rfl⟩
  obtain ⟨hclosed, hwriter, hwritten⟩ := hlink
  rw [hjoin]
  refine ⟨h.joined.trans (List.prefix_append _ _), ?_, ?_, fun hshut other => ?_⟩
  · exact fun hshut => hclosed.trans (h.closed hshut)
  · intro hopen htakes
    dsimp only at htakes ⊢
    rw [hwritten]
    exact h.flushed hopen (hwriter ▸ htakes)
  · refine List.Sublist.trans ?_ (h.late hshut other)
    dsimp only
    rw [List.drop_append_of_le_length h.joined.length_le, framesOf_append, List.append_assoc]
    refine List.Sublist.append (.refl _) ?_
    rw [pending, pending, lookup_filter_ne]
    by_cases hother : other = sender
    · subst hother
      rw [if_pos rfl, hframe]
      obtain ⟨-, rfl, -⟩ | ⟨-, rfl, -⟩ := hcase
      · simp [framesOf]
      · exact List.nil_sublist _
    · rw [if_neg hother]
      obtain ⟨-, rfl, -⟩ | ⟨-, rfl, -⟩ := hcase
      · rw [framesOf_singleton, if_neg hother]
        exact .refl _
      · exact .refl _

/-- The writer goes on, or the link is closed. -/
theorem link {event : Link.Event} {link : Link} (h : s.Since t) (horder : t.InOrder)
    (hevent : event ≠ .fail) (hlink : t.link.step? event = some link) :
    s.Since { t with link } := by
  cases event with
  | close =>
    obtain rfl := Option.some.inj hlink
    exact ⟨h.joined, fun _ => rfl, h.flushed, h.late⟩
  | write =>
    obtain ⟨frame, rest, -, htakes, rfl⟩ := Link.write?_eq_some hlink
    refine ⟨h.joined, h.closed, fun _ hnone => ?_, h.late⟩
    rw [htakes] at hnone
    cases hnone
  | fail => exact absurd rfl hevent
  | notice =>
    obtain ⟨-, -, rfl⟩ := Link.notice?_eq_some hlink
    exact ⟨h.joined, h.closed, (fun _ htakes => nomatch htakes), h.late⟩
  | drain =>
    -- The queue is empty, so all that have joined are written.
    obtain ⟨-, hqueue, rfl⟩ := Link.drain?_eq_some hlink
    refine ⟨h.joined, h.closed, fun _ _ => ?_, h.late⟩
    rw [InOrder, hqueue, List.append_nil] at horder
    dsimp only
    rw [horder, List.length_map]
    exact h.joined.length_le
  | stop =>
    obtain ⟨hwriter, rfl⟩ := Link.stop?_eq_some hlink
    refine ⟨h.joined, h.closed, fun hopen _ => h.flushed hopen ?_, h.late⟩
    rw [hwriter]
    rfl

theorem step (h : s.Since t) (horder : t.InOrder) (hevent : event ≠ .link .fail)
    (hstep : t.step? event = some u) : s.Since u := by
  obtain ⟨sender, frame, rfl, -, rfl⟩ | ⟨sender, frame, rfl, hframe, rfl⟩ |
    ⟨linkEvent, link, rfl, hlink, rfl⟩ := step?_eq_some hstep
  · exact h.begin sender frame
  · exact h.join hframe
  · exact h.link horder (fun he => hevent (he ▸ rfl)) hlink

end Since

/-! ## Runs -/

theorem run?_append {before after : List Event} (hbefore : s.run? before = some t) :
    s.run? (before ++ after) = t.run? after := by
  rw [run?, List.foldlM_append, ← run?, hbefore]
  rfl

/-- What a run begins with and every step keeps holds at its end. -/
theorem run?_induct {P : List Event → Traffic → Prop} {events : List Event} (hstart : P [] s)
    (hstep : ∀ {events : List Event} {event : Event} {t u : Traffic}, s.run? events = some t →
      P events t → t.step? event = some u → P (events ++ [event]) u)
    (hrun : s.run? events = some t) : P events t := by
  induction events using List.reverseRecOn generalizing t with
  | nil =>
    obtain rfl := Option.some.inj hrun
    exact hstart
  | append_singleton events event ih =>
    rw [run?, List.foldlM_append] at hrun
    obtain ⟨u, hbefore, hafter⟩ := Option.bind_eq_some_iff.1 hrun
    rw [List.foldlM_cons] at hafter
    obtain ⟨_, hlast, hend⟩ := Option.bind_eq_some_iff.1 hafter
    obtain rfl := Option.some.inj hend
    exact hstep hbefore (ih hbefore) hlast

/-- What a step does to the link: a sender leaves it as it is or puts a frame into its queue. -/
theorem link_of_step? (hstep : t.step? event = some u) :
    (∀ linkEvent, event ≠ .link linkEvent) ∧
        (u.link = t.link ∨ ∃ frame, t.link.enqueue frame = .ok u.link) ∨
      ∃ linkEvent, event = .link linkEvent ∧ t.link.step? linkEvent = some u.link := by
  obtain ⟨sender, frame, rfl, -, rfl⟩ | ⟨sender, frame, rfl, -, rfl⟩ |
    ⟨linkEvent, link, hevent, hlink, rfl⟩ := step?_eq_some hstep
  · refine .inl ⟨by simp, .inl ?_⟩
    obtain ⟨-, hbegin⟩ | ⟨e, -, hbegin⟩ := t.begin_cases sender frame
    · rw [hbegin]
    · rw [hbegin, answer]
  · refine .inl ⟨by simp, ?_⟩
    obtain ⟨link, joined, result, hjoin, hcase⟩ := t.join_cases sender frame
    rw [hjoin]
    obtain ⟨henqueue, -⟩ | ⟨rfl, -⟩ := hcase
    · exact .inr ⟨frame, henqueue⟩
    · exact .inl rfl
  · exact .inr ⟨linkEvent, hevent, hlink⟩

variable {remote : Address} {maxFrame : Nat} {events before after : List Event}

theorem attended_of_run? (hrun : (new remote maxFrame).run? events = some t) :
    t.link.Attended := by
  refine run?_induct (P := fun _ t => t.link.Attended) (.new remote maxFrame) ?_ hrun
  intro events event t u _ h hstep
  obtain ⟨-, hsame | ⟨frame, henqueue⟩⟩ | ⟨linkEvent, -, hlink⟩ := link_of_step? hstep
  · rwa [hsame]
  · exact h.enqueue henqueue
  · exact h.step hlink

theorem accounts_of_run? (hrun : (new remote maxFrame).run? events = some t) :
    Accounts events t :=
  run?_induct (P := Accounts) (.new remote maxFrame) (fun _ h hstep => h.step hstep) hrun

/-- While no write fails, a link is closed exactly if somebody has closed it. -/
theorem closed_iff_of_run? (hfail : .link .fail ∉ events)
    (hrun : (new remote maxFrame).run? events = some t) :
    t.link.closed = true ↔ .link .close ∈ events := by
  refine run?_induct (P := fun events t => .link .fail ∉ events →
    (t.link.closed = true ↔ .link .close ∈ events)) ?_ ?_ hrun hfail
  · simp [Traffic.new, Link.new]
  · intro events event t u _ h hstep hfail
    rw [List.mem_append, not_or, List.mem_singleton] at hfail
    rw [List.mem_append, List.mem_singleton, ← h hfail.1]
    obtain ⟨hevent, hlink⟩ | ⟨linkEvent, rfl, hlink⟩ := link_of_step? hstep
    · rw [or_iff_left (hevent .close).symm]
      obtain hsame | ⟨frame, henqueue⟩ := hlink
      · rw [hsame]
      · rw [(Link.enqueue_eq_ok henqueue).2]
    · rw [Link.closed_iff_of_step? (fun he => hfail.2 (he ▸ rfl)) hlink, Event.link.injEq]
      exact or_congr_right eq_comm

theorem since_of_run? (hfail : .link .fail ∉ before ++ after)
    (hbefore : (new remote maxFrame).run? before = some s) (hafter : s.run? after = some t) :
    s.Since t := by
  refine run?_induct (P := fun after t => .link .fail ∉ before ++ after → s.Since t) ?_ ?_
    hafter hfail
  · exact fun _ => .refl (attended_of_run? hbefore)
  · intro events event t u hrun h hstep hfail
    rw [← List.append_assoc, List.mem_append, not_or, List.mem_singleton] at hfail
    refine (h hfail.1).step ?_ (Ne.symm hfail.2) hstep
    exact written_append_queue hfail.1 ((run?_append hbefore).trans hrun)

/-! ## Order and flush -/

/-- Any number of senders use a link, which may be closed, and no write fails. At every moment what
has been written are the first of the frames that have joined the queue, in that order, and those
are the frames of the calls that have succeeded. The frames of each sender are written in the order
of its calls. Once the writer has stopped, all frames are written that had joined before the link
was closed. A call that begins when it has been closed ends at once with an error, and no frame
joins from then on but one of each sender that had been let through before. -/
theorem written_in_order (hfail : .link .fail ∉ before ++ after)
    (hbefore : (new remote maxFrame).run? before = some s) (hafter : s.run? after = some t) :
    (t.link.written = t.sent.map (·.2) ∧ t.sent <+: t.joined ∧
      t.joined = t.answers.filterMap accepted?) ∧
    (∀ sender, (framesOf sender t.sent).Sublist (callsOf sender (before ++ after))) ∧
    (.link .close ∉ before → t.link.writer = .stopped → s.joined <+: t.sent) ∧
    (.link .close ∈ before →
      (∀ sender frame, s.begun.lookup sender = none →
        s.step? (.begin sender frame) = some (s.answer sender frame
          (.error (if s.link.maxFrame < frame.length then
            .frameTooLarge frame.length s.link.maxFrame else .connectionClosed s.link.remote)))) ∧
      ∀ sender, (framesOf sender (t.joined.drop s.joined.length)).Sublist (s.pending sender)) := by
  have hrun := (run?_append hbefore).trans hafter
  have horder := written_append_queue hfail hrun
  have haccounts := accounts_of_run? hrun
  have hsince := since_of_run? hfail hbefore hafter
  have hclosed := closed_iff_of_run? (fun h => hfail (List.mem_append_left _ h)) hbefore
  have hfront : t.sent <+: t.joined := List.take_prefix _ _
  refine ⟨⟨?_, hfront, haccounts.joined⟩, fun sender => ?_, ?_, ?_⟩
  · rw [sent, List.map_take, ← horder, List.take_left]
  · exact ((hfront.sublist.filter _).map _).trans (haccounts.framesOf_joined sender)
  · intro hopen hstopped
    rw [← hclosed, Bool.not_eq_true] at hopen
    have hflushed := hsince.flushed hopen (by rw [hstopped]; rfl)
    exact List.prefix_take_iff.2 ⟨hsince.joined, hflushed⟩
  · intro hclose
    rw [← hclosed] at hclose
    refine ⟨fun sender frame hidle => ?_, fun sender => ?_⟩
    · rw [step?, hidle, Traffic.begin, Link.check_of_closed hclose]
      rfl
    · exact (List.sublist_append_left _ _).trans (hsince.late hclose sender)

/-! ## A call while the link is closed -/

namespace Race

def peer : Address := .v4 ⟨10, 0, 0, 2⟩ 7000

/-- The first of two senders has sent a frame, and the second has been let through. -/
def opening : List Event := [.begin 0 [1], .join 0, .begin 1 [2]]

/-- The link is closed. The second sender goes on, and the first comes too late. The writer takes
what is left and goes. -/
def closing : List Event :=
  [.link .close, .link .notice, .join 1, .begin 0 [3], .link .write, .link .write, .link .drain,
    .link .stop]

def opened : Traffic := ((new peer 8).run? opening).get (by decide)

def closed : Traffic := (opened.run? closing).get (by decide)

/-- What had been let through is written, and a call that begins now is refused. -/
theorem written_in_order_late_sender :
    (closed.link.writer = .stopped ∧ opened.joined <+: closed.sent ∧
      closed.sent = [(0, [1]), (1, [2])] ∧ callsOf 0 (opening ++ closing) = [[1], [3]]) ∧
    closed.step? (.begin 1 [4]) =
      some (closed.answer 1 [4] (.error (.connectionClosed peer))) := by
  have hopening : (new peer 8).run? opening = some opened := (Option.some_get _).symm
  have hclosing : opened.run? closing = some closed := (Option.some_get _).symm
  have hfail : .link .fail ∉ opening ++ closing := by decide
  have hstopped : closed.link.writer = .stopped := by decide
  obtain ⟨-, -, hflushed, -⟩ := written_in_order hfail hopening hclosing
  have hrun : (new peer 8).run? (opening ++ closing) = some closed :=
    (run?_append hopening).trans hclosing
  have hagain : .link .fail ∉ (opening ++ closing) ++ [] := by decide
  obtain ⟨-, -, -, hlate⟩ := written_in_order hagain hrun rfl
  obtain ⟨hrefused, -⟩ := hlate (by decide)
  exact ⟨⟨hstopped, hflushed (by decide) hstopped, by decide, by decide⟩,
    hrefused 1 [4] (by decide)⟩

end Race

end Traffic

end Collective
