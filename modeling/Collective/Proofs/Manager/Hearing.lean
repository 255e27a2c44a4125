import Collective.Proofs.Manager.Links

/-!
# Who hears of messages

Only a disposal takes observers away from a manager, and by then all its links are closed. So who is
told of a message over an open link, and how long a frame may be, does not change
(`Activity.Hears.step`).
-/

namespace Collective

namespace Manager

variable {ω : Type} {m n k : Manager ω}

/-- Two managers have the same observers, and the same maximum for frames. -/
structure Alike (m n : Manager ω) : Prop where
  maxFrame : n.maxFrame = m.maxFrame
  observers : n.observers = m.observers

theorem Alike.refl (m : Manager ω) : m.Alike m := ⟨rfl, rfl⟩

theorem alike_cellOf (m : Manager ω) (destination : Address) :
    m.Alike (m.cellOf destination).1 := by
  rw [cellOf]
  split <;> exact ⟨rfl, rfl⟩

theorem alike_evict (m : Manager ω) (destination : Address) (number : Nat) :
    m.Alike (m.evict destination number) := by
  rw [evict]
  split <;> exact ⟨rfl, rfl⟩

theorem dispatch_congr {α : Type} (h : n.observers = m.observers) (source : Address) (message : α) :
    n.dispatch source message = m.dispatch source message := by
  rw [dispatch, dispatch, h]

theorem report_congr {α : Type} (h : n.observers = m.observers) (source : Address)
    (e : TransportError) :
    (n.report source e : List (ω × Notice α)) = m.report source e := by
  rw [report, report, h]

end Manager

/-! ## Steps -/

section

variable {ω α : Type} {m n : Manager ω}

theorem Dial.alike_of_step? {reach : Except TransportError Unit} {destination : Address}
    {d e : Dial} (hstep : d.step? reach destination m = some (n, e)) : m.Alike n := by
  cases d with
  | check tries =>
    cases tries with
    | zero =>
      cases hstep
      exact .refl m
    | succ tries =>
      rw [step?] at hstep
      split at hstep <;> cases hstep <;> exact .refl m
  | look tries =>
    cases hstep
    exact m.alike_cellOf destination
  | wait tries cell =>
    rw [step?] at hstep
    split at hstep <;> cases hstep <;> exact ⟨rfl, rfl⟩
  | connect tries cell =>
    rw [step?] at hstep
    split at hstep <;> cases hstep <;> exact ⟨rfl, rfl⟩
  | store tries cell link =>
    cases hstep
    exact ⟨rfl, rfl⟩
  | inspect tries link =>
    cases hstep
    exact .refl m
  | evict tries link =>
    cases hstep
    exact m.alike_evict destination link
  | answered result => cases hstep

theorem Adoption.alike_of_step? {source : Address} {x y : Adoption}
    (hstep : x.step? source m = some (n, y)) : m.Alike n := by
  cases x with
  | look link =>
    cases hstep
    exact m.alike_cellOf source
  | store link cell =>
    cases hstep
    split <;> exact ⟨rfl, rfl⟩
  | done => cases hstep

theorem Reading.alike_of_step? {decode : Bytes → Except CodecError α} {source : Address}
    {link : Nat} {offer : Option Offer} {r : Reading} {outcome : Reading.Outcome ω α}
    (hstep : r.step? decode source link offer m = some outcome) : m.Alike outcome.manager := by
  cases r with
  | next =>
    obtain ⟨-, rfl⟩ | ⟨-, ⟨-, rfl⟩ | ⟨_, -, rfl⟩ | ⟨_, _, -, -, rfl⟩ | ⟨_, _, -, -, rfl⟩⟩ :=
      next_eq_some hstep <;> exact .refl m
  | close =>
    cases hstep
    exact ⟨rfl, rfl⟩
  | evict =>
    cases hstep
    exact m.alike_evict source link
  | done => cases hstep

/-- A disposal drops the observers in one of its steps. -/
theorem Disposal.alike_of_step? {x y : Disposal} (hstep : x.step? m = some (n, y)) :
    n.maxFrame = m.maxFrame ∧ (x ≠ .silence → n.observers = m.observers) := by
  cases x with
  | start =>
    rw [step?] at hstep
    split at hstep <;> cases hstep <;> exact ⟨rfl, fun _ => rfl⟩
  | silence =>
    cases hstep
    exact ⟨rfl, fun hne => absurd rfl hne⟩
  | done => cases hstep
  | _ =>
    cases hstep
    exact ⟨rfl, fun _ => rfl⟩

theorem Disposal.eq_forget_of_step? {x : Disposal} (hstep : x.step? m = some (n, .silence)) :
    x = .forget := by
  cases x with
  | forget => rfl
  | start =>
    rw [step?] at hstep
    split at hstep <;> cases hstep
  | _ => cases hstep

end

namespace Activity

variable {ω α : Type} {decode : Bytes → Except CodecError α} {a b : Activity ω α}
  {m : Manager ω} {owners : List Address}

/-- What a step leaves as it is, unless it drops the observers. -/
theorem alike_of_step? {event : Event} (hstep : a.step? decode event = some b) :
    b.manager.maxFrame = a.manager.maxFrame ∧
      (.silence ∉ a.disposals → b.manager.observers = a.manager.observers) := by
  have hkeeps : ∀ {n : Manager ω}, a.manager.Alike n → n.maxFrame = a.manager.maxFrame ∧
      (.silence ∉ a.disposals → n.observers = a.manager.observers) :=
    fun h => ⟨h.maxFrame, fun _ => h.observers⟩
  cases steps_of_step? hstep with
  | dialStep _ hmove => exact hkeeps (Dial.alike_of_step? hmove)
  | adopt _ _ hmove => exact hkeeps (Adoption.alike_of_step? hmove)
  | read _ hmove => exact hkeeps (Reading.alike_of_step? hmove)
  | disposeStep hx hmove =>
    obtain ⟨hmax, hobservers⟩ := Disposal.alike_of_step? hmove
    refine ⟨hmax, fun hsilence => hobservers ?_⟩
    rintro rfl
    exact hsilence (List.mem_of_getElem? hx)
  | _ => exact ⟨rfl, fun _ => rfl⟩

/-- While its links are open, the manager tells the same observers as it did at first. -/
structure Hears (m : Manager ω) (a : Activity ω α) : Prop where
  maxFrame : a.manager.maxFrame = m.maxFrame
  observers : a.manager.cancelled = true ∨ a.manager.observers = m.observers
  silence : .silence ∈ a.disposals → a.manager.cancelled = true

theorem hears_idle (m : Manager ω) : (idle m : Activity ω α).Hears m := ⟨rfl, .inr rfl, nofun⟩

/-- The step lemma. A disposal drops the observers after it has closed all links. -/
theorem Hears.step (h : a.Hears m) (hkept : a.Kept owners) {event : Event}
    (hstep : a.step? decode event = some b) : b.Hears m := by
  obtain ⟨hmax, hobservers⟩ := alike_of_step? hstep
  have hstays := (succeeds_of_step? hstep).cancelled
  refine ⟨hmax.trans h.maxFrame, ?_, ?_⟩
  · by_cases hsilence : .silence ∈ a.disposals
    · exact .inl (hstays (h.silence hsilence))
    · exact h.observers.imp hstays (hobservers hsilence).trans
  · intro hsilence
    obtain hsame | hnew | ⟨number, x, y, hx, hmove, hset⟩ := disposals_of_step? hstep
    · exact hstays (h.silence (hsame ▸ hsilence))
    · rw [hnew] at hsilence
      rcases List.mem_append.1 hsilence with hold | hlast
      · exact hstays (h.silence hold)
      · cases List.mem_singleton.1 hlast
    · rw [hset] at hsilence
      rcases List.mem_or_eq_of_mem_set hsilence with hold | rfl
      · exact hstays (h.silence hold)
      · obtain rfl := Disposal.eq_forget_of_step? hmove
        exact hstays (hkept.forget (List.mem_of_getElem? hx))

/-- A loop whose link is open tells the observers that there were at first. -/
theorem Hears.observers_of_open (h : a.Hears m) (htended : a.Tended) {r : Reader}
    (hr : r ∈ a.readers) (hopen : (a.manager.link? r.link).any (·.closed) = false) :
    a.manager.observers = m.observers := by
  refine h.observers.resolve_left fun hcancelled => ?_
  obtain ⟨_, hkept⟩ := htended.kept
  obtain ⟨c, hc⟩ := (hkept.reader r hr).exists_link
  have hclosed := htended.closed_of_cancelled hcancelled c (List.mem_of_getElem? hc)
  rw [Manager.link?, hc, Option.map_some, Option.any_some, hclosed] at hopen
  cases hopen

end Activity

end Collective
