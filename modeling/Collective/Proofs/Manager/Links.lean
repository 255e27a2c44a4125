import Collective.Proofs.Link.Sending
import Collective.Proofs.Manager.Step
import Collective.Proofs.Manager.Uniqueness

/-!
# The links of a manager

Whatever goes on at a manager, its links are new ones, senders put frames into their queues, their
writers go on, or they are closed. What is true of a new link and survives all this is therefore
kept by every step of a manager, of all its links (`Activity.links_of_step?`).
-/

namespace Collective

/-- What is true of a new link, and stays true whatever is done to the link. -/
structure Link.Lasting (P : Link → Prop) : Prop where
  new : ∀ remote maxFrame, P (.new remote maxFrame)
  step : ∀ {l m : Link} {event : Event}, P l → l.step? event = some m → P m
  enqueue : ∀ {l m : Link} {frame : Bytes}, P l → l.enqueue frame = .ok m → P m

theorem Link.Lasting.close {P : Link → Prop} {l : Link} (hP : Lasting P) (h : P l) : P l.close :=
  have hclose : l.step? .close = some l.close := rfl
  hP.step h hclose

theorem Link.lasting_attended : Lasting Attended where
  new := .new
  step h hm := h.step hm
  enqueue h hm := h.enqueue hm

namespace Manager

variable {ω : Type} {m n : Manager ω} {P : Link → Prop}

/-- A manager that has done nothing yet, with observers. -/
def observed (home : Option Address) (maxFrame : Nat) (observers : Observers ω) : Manager ω :=
  { (new home maxFrame : Manager ω) with observers }

/-- All links of a manager are such. -/
def Links (P : Link → Prop) (m : Manager ω) : Prop := ∀ c ∈ m.connections, P c.link

theorem connections_cellOf (m : Manager ω) (destination : Address) :
    (m.cellOf destination).1.connections = m.connections := by
  rw [cellOf]
  split <;> rfl

theorem connections_evict (m : Manager ω) (destination : Address) (number : Nat) :
    (m.evict destination number).connections = m.connections := by
  rw [evict]
  split <;> rfl

theorem Links.of_eq (h : m.Links P) (hn : n.connections = m.connections) : n.Links P := by
  rwa [Links, hn]

theorem Links.of_link? (h : m.Links P) {number : Nat} {l : Link}
    (hl : m.link? number = some l) : P l := by
  obtain ⟨c, hc, rfl⟩ := Option.map_eq_some_iff.1 hl
  exact h c (List.mem_of_getElem? hc)

theorem Links.addLink (h : m.Links P) (hP : Link.Lasting P) (remote : Address) (maxFrame : Nat)
    (outbound : Bool) : (m.addLink (.new remote maxFrame) outbound).1.Links P := by
  intro c hc
  rcases List.mem_append.1 hc with hc | hc
  · exact h c hc
  · obtain rfl := List.mem_singleton.1 hc
    dsimp only
    split
    · exact hP.close (hP.new remote maxFrame)
    · exact hP.new remote maxFrame

theorem Links.modifyLink (h : m.Links P) {number : Nat} {f : Link → Link}
    (hf : ∀ l, m.link? number = some l → P (f l)) : (m.modifyLink number f).Links P := by
  intro c hc
  obtain ⟨other, hother⟩ := List.mem_iff_getElem?.1 hc
  rw [connections_modifyLink] at hother
  obtain ⟨d, hd, rfl⟩ := Option.map_eq_some_iff.1 hother
  split
  · next hsame =>
    subst hsame
    exact hf d.link (by rw [link?, hd]; rfl)
  · exact h d (List.mem_of_getElem? hd)

end Manager

/-! ## Steps -/

section

variable {ω α : Type} {m n : Manager ω} {P : Link → Prop}

theorem Dial.links_of_step? {reach : Except TransportError Unit} {destination : Address}
    {d e : Dial} (hP : Link.Lasting P) (h : m.Links P)
    (hstep : d.step? reach destination m = some (n, e)) : n.Links P := by
  cases d with
  | check tries =>
    cases tries with
    | zero =>
      cases hstep
      exact h
    | succ tries =>
      rw [step?] at hstep
      split at hstep <;> cases hstep <;> exact h
  | look tries =>
    cases hstep
    exact h.of_eq (m.connections_cellOf destination)
  | wait tries cell =>
    rw [step?] at hstep
    split at hstep <;> cases hstep <;> exact h
  | connect tries cell =>
    rw [step?] at hstep
    split at hstep
    · cases hstep
      exact h
    · next link _ hopened =>
      cases hstep
      obtain rfl : link = .new destination m.maxFrame := by
        cases reach with
        | error e => cases hopened
        | ok _ => exact Link.eq_of_opened hopened
      exact h.addLink hP destination m.maxFrame true
  | store tries cell link =>
    cases hstep
    exact h
  | inspect tries link =>
    cases hstep
    exact h
  | evict tries link =>
    cases hstep
    exact h.of_eq (m.connections_evict destination link)
  | answered result => cases hstep

theorem Adoption.links_of_step? {source : Address} {x y : Adoption} (h : m.Links P)
    (hstep : x.step? source m = some (n, y)) : n.Links P := by
  cases x with
  | look link =>
    cases hstep
    exact h.of_eq (m.connections_cellOf source)
  | store link cell =>
    cases hstep
    split <;> exact h
  | done => cases hstep

theorem Reading.links_of_step? {decode : Bytes → Except CodecError α} {source : Address}
    {link : Nat} {offer : Option Offer} {r : Reading} {outcome : Reading.Outcome ω α}
    (hP : Link.Lasting P) (h : m.Links P)
    (hstep : r.step? decode source link offer m = some outcome) : outcome.manager.Links P := by
  cases r with
  | next =>
    have hsame : outcome.manager = m := by
      obtain ⟨-, rfl⟩ | ⟨-, ⟨-, rfl⟩ | ⟨_, -, rfl⟩ | ⟨_, _, -, -, rfl⟩ | ⟨_, _, -, -, rfl⟩⟩ :=
        next_eq_some hstep <;> rfl
    rwa [hsame]
  | close =>
    cases hstep
    exact h.modifyLink fun l hl => hP.close (h.of_link? hl)
  | evict =>
    cases hstep
    exact h.of_eq (m.connections_evict source link)
  | done => cases hstep

theorem Disposal.links_of_step? {x y : Disposal} (hP : Link.Lasting P) (h : m.Links P)
    (hstep : x.step? m = some (n, y)) : n.Links P := by
  cases x with
  | start =>
    rw [step?] at hstep
    split at hstep <;> cases hstep <;> exact h
  | cancel =>
    cases hstep
    intro c hc
    obtain ⟨d, hd, rfl⟩ := List.mem_map.1 hc
    exact hP.close (h d hd)
  | forget =>
    cases hstep
    exact h
  | silence =>
    cases hstep
    exact h
  | done => cases hstep

end

namespace Activity

variable {ω α : Type} {decode : Bytes → Except CodecError α} {a b : Activity ω α}
  {P : Link → Prop}

/-- The step lemma: whatever happens next, what is lasting stays true of all links. -/
theorem links_of_step? {event : Event} (hP : Link.Lasting P) (h : a.manager.Links P)
    (hstep : a.step? decode event = some b) : b.manager.Links P := by
  cases steps_of_step? hstep with
  | dialStep _ hmove => exact Dial.links_of_step? hP h hmove
  | greet _ _ haccept =>
    obtain ⟨_, _, -, -, rfl⟩ := Link.accept?_eq_ok haccept
    exact h.addLink hP _ _ false
  | adopt _ _ hmove => exact Adoption.links_of_step? h hmove
  | read _ hmove => exact Reading.links_of_step? hP h hmove
  | join _ hl _ hsent => exact h.modifyLink fun _ _ => hP.enqueue (h.of_link? hl) hsent
  | disposeStep _ hmove => exact Disposal.links_of_step? hP h hmove
  | link hl hmoved => exact h.modifyLink fun _ _ => hP.step (h.of_link? hl) hmoved
  | _ => exact h

/-! ## What is so at every manager -/

/-- When all links are closed, they are closed for good. -/
theorem Kept.closed_of_cancelled {owners : List Address} (h : a.Kept owners)
    (hattended : a.manager.Links Link.Attended) (hcancelled : a.manager.cancelled = true) :
    a.manager.Links (·.closed = true) := by
  intro c hc
  obtain ⟨number, hnumber⟩ := List.mem_iff_getElem?.1 hc
  rw [← (hattended c hc).isClosed_eq]
  exact h.manager.closed hcancelled hnumber

/-- What goes on at a manager has found out what is so, and writers attend to the links. -/
structure Tended (a : Activity ω α) : Prop where
  kept : ∃ owners, a.Kept owners
  attended : a.manager.Links Link.Attended

namespace Tended

theorem idle (home : Option Address) (maxFrame : Nat) (observers : Observers ω) :
    (idle (.observed home maxFrame observers) : Activity ω α).Tended where
  kept := by
    have hkept : (Activity.idle (.new home maxFrame) : Activity ω α).Kept [] :=
      kept_idle home maxFrame
    exact ⟨[], ⟨⟨rfl, hkept.manager.cached, hkept.manager.full, hkept.manager.uncached,
      hkept.manager.closed⟩, hkept.fits, hkept.alone, hkept.outbound, nofun, nofun, nofun, nofun⟩⟩
  attended := nofun

theorem step (h : a.Tended) {event : Event} (hstep : a.step? decode event = some b) :
    b.Tended where
  kept := by
    obtain ⟨owners, hkept⟩ := h.kept
    obtain ⟨more, hnext, -⟩ := hkept.step hstep
    exact ⟨owners ++ more, hnext⟩
  attended := links_of_step? Link.lasting_attended h.attended hstep

theorem closed_of_cancelled (h : a.Tended) (hcancelled : a.manager.cancelled = true) :
    a.manager.Links (·.closed = true) := by
  obtain ⟨_, hkept⟩ := h.kept
  exact hkept.closed_of_cancelled h.attended hcancelled

end Tended

end Activity

end Collective
