import Collective.Group.Mailbox

/-!
# Mailboxes as queues

As long as no two mailboxes share a queue, a set of mailboxes is one queue per mailbox: opening one
changes nothing that waits, a message joins the end of its own mailbox, and taking from the queue of
a mailbox takes its first message. None of these steps touches another mailbox.
-/

namespace Collective.Mailboxes

variable {ms : Mailboxes} {box other : Mailbox} {number : Nat} {m : Message}

/-- Every mailbox has a queue, and no two mailboxes have the same one. -/
structure WellFormed (ms : Mailboxes) : Prop where
  lt_length : ∀ box number, ms.number? box = some number → number < ms.queues.length
  injective : ∀ box other number,
    ms.number? box = some number → ms.number? other = some number → box = other

theorem wellFormed_empty : empty.WellFormed where
  lt_length _ _ h := nomatch h
  injective _ _ _ h := nomatch h

/-! ## Opening -/

theorem number?_opened (ms : Mailboxes) (box other : Mailbox) :
    (ms.opened box).1.number? other =
      if box = other then some (ms.opened box).2 else ms.number? other := by
  cases h : ms.number? box with
  | some number =>
    simp only [opened, h]
    split
    · next he => rw [← he, h]
    · rfl
  | none =>
    simp only [opened, h]
    by_cases he : box = other <;> simp [number?, he]

/-- Opening a mailbox gives no other number to a queue. -/
theorem number?_opened_of_some (h : ms.number? other = some number) (box : Mailbox) :
    (ms.opened box).1.number? other = some number := by
  by_cases he : box = other
  · subst he
    simp only [opened, h]
  · rw [number?_opened, if_neg he, h]

theorem queue_opened (ms : Mailboxes) (box : Mailbox) (number : Nat) :
    (ms.opened box).1.queue number = ms.queue number := by
  cases h : ms.number? box with
  | some _ => simp only [opened, h]
  | none =>
    simp only [opened, h, queue]
    rcases Nat.lt_trichotomy number ms.queues.length with hlt | rfl | hgt
    · rw [List.getElem?_append_left hlt]
    · simp
    · rw [List.getElem?_eq_none (by simp; omega), List.getElem?_eq_none (by omega)]

theorem WellFormed.opened (h : ms.WellFormed) (box : Mailbox) : (ms.opened box).1.WellFormed := by
  cases hbox : ms.number? box with
  | some number => simpa only [Mailboxes.opened, hbox] using h
  | none =>
    have hnumber := number?_opened ms box
    have hnew : (ms.opened box).2 = ms.queues.length := by simp only [Mailboxes.opened, hbox]
    have hlength : (ms.opened box).1.queues.length = ms.queues.length + 1 := by
      simp [Mailboxes.opened, hbox]
    constructor
    · intro other number hother
      rw [hnumber] at hother
      split at hother
      · obtain rfl := Option.some.inj hother
        omega
      · have := h.lt_length other number hother
        omega
    · intro first second number hfirst hsecond
      rw [hnumber] at hfirst hsecond
      split at hfirst <;> split at hsecond
      · next he he' => rw [← he, ← he']
      · have := h.lt_length _ _ hsecond
        have := Option.some.inj hfirst
        omega
      · have := h.lt_length _ _ hfirst
        have := Option.some.inj hsecond
        omega
      · exact h.injective _ _ _ hfirst hsecond

theorem waiting_opened (ms : Mailboxes) (box other : Mailbox) :
    (ms.opened box).1.waiting other = ms.waiting other := by
  rw [waiting, waiting, number?_opened]
  split
  · next he =>
    subst he
    cases h : ms.number? box with
    | some number => simp [opened, h]
    | none => simp [opened, h, queue]
  · cases ms.number? other with
    | none => rfl
    | some number => simp [queue_opened]

/-! ## Delivering -/

theorem WellFormed.deliver (h : ms.WellFormed) (m : Message) : (ms.deliver m).WellFormed := by
  have hopened := h.opened m.mailbox
  constructor
  · intro box number hbox
    have := hopened.lt_length box number hbox
    simpa [Mailboxes.deliver] using this
  · exact hopened.injective

/-- A message joins the end of its mailbox and no other one. -/
theorem WellFormed.waiting_deliver (h : ms.WellFormed) (m : Message) (box : Mailbox) :
    (ms.deliver m).waiting box =
      if m.mailbox = box then ms.waiting box ++ [m] else ms.waiting box := by
  have hopened := h.opened m.mailbox
  have hself : (ms.opened m.mailbox).1.number? m.mailbox = some (ms.opened m.mailbox).2 := by
    rw [number?_opened, if_pos rfl]
  have hqueue : ∀ number, number < (ms.opened m.mailbox).1.queues.length →
      (ms.deliver m).queue number =
        if (ms.opened m.mailbox).2 = number then (ms.opened m.mailbox).1.queue number ++ [m]
        else (ms.opened m.mailbox).1.queue number := by
    intro number hnumber
    simp only [Mailboxes.deliver, queue, List.getElem?_modify,
      List.getElem?_eq_getElem hnumber]
    split <;> simp
  rw [← waiting_opened ms m.mailbox box, waiting, waiting]
  have hnumber : (ms.deliver m).number? box = (ms.opened m.mailbox).1.number? box := rfl
  rw [hnumber]
  cases hbox : (ms.opened m.mailbox).1.number? box with
  | none =>
    have hne : m.mailbox ≠ box := by
      rintro rfl
      rw [hself] at hbox
      cases hbox
    simp [hne]
  | some number =>
    simp only [Option.map_some, Option.getD_some, hqueue _ (hopened.lt_length _ _ hbox)]
    by_cases he : m.mailbox = box
    · subst he
      obtain rfl := Option.some.inj (hself.symm.trans hbox)
      rw [if_pos rfl, if_pos rfl]
    · rw [if_neg he, if_neg]
      rintro rfl
      exact he (hopened.injective _ _ _ hself hbox)

/-! ## Taking -/

/-- Taking from a queue, whether a mailbox has it or not, leaves the others alone. -/
theorem WellFormed.pop? (h : ms.WellFormed) {rest : Mailboxes}
    (hpop : ms.pop? number = some (m, rest)) :
    rest.WellFormed ∧ (∀ other, rest.number? other = ms.number? other) ∧
      rest.queues.length = ms.queues.length ∧
      ∀ other, ms.number? other ≠ some number → rest.waiting other = ms.waiting other := by
  rw [Mailboxes.pop?] at hpop
  split at hpop
  · next m' tail hqueue =>
    obtain ⟨rfl, rfl⟩ := Prod.mk.inj (Option.some.inj hpop)
    have hlength : (ms.queues.set number tail).length = ms.queues.length := List.length_set
    refine ⟨⟨?_, h.injective⟩, fun _ => rfl, hlength, ?_⟩
    · intro other number' hother
      rw [hlength]
      exact h.lt_length other number' hother
    · intro other hother
      have hsame : ({ ms with queues := ms.queues.set number tail } : Mailboxes).number? other =
          ms.number? other := rfl
      rw [waiting, waiting, hsame]
      cases hnumber : ms.number? other with
      | none => rfl
      | some number' =>
        have hne : number ≠ number' := by
          rintro rfl
          exact hother hnumber
        simp [queue, hne]
  · cases hpop

/-- Taking from the queue of a mailbox takes its first message. -/
theorem WellFormed.pop?_eq (h : ms.WellFormed) (hbox : ms.number? box = some number)
    {rest : Mailboxes} (hpop : ms.pop? number = some (m, rest)) :
    rest.WellFormed ∧ (∀ other, rest.number? other = ms.number? other) ∧
      ms.waiting box = m :: rest.waiting box ∧
      ∀ other, other ≠ box → rest.waiting other = ms.waiting other := by
  obtain ⟨hrest, hnumber, -, hother⟩ := h.pop? hpop
  refine ⟨hrest, hnumber, ?_, ?_⟩
  · have hlt := h.lt_length _ _ hbox
    rw [waiting, waiting, hnumber, hbox]
    rw [Mailboxes.pop?] at hpop
    split at hpop
    · next m' tail hqueue =>
      obtain ⟨rfl, rfl⟩ := Prod.mk.inj (Option.some.inj hpop)
      simp [queue, hlt] at hqueue ⊢
      exact hqueue
    · cases hpop
  · intro other hne
    exact hother other fun hsame => hne (h.injective _ _ _ hsame hbox)

/-! ## Dropping -/

theorem number?_retain (ms : Mailboxes) (sources : List String) (box : Mailbox) :
    (ms.retain sources).number? box = if box.source ∈ sources then ms.number? box else none := by
  rw [number?, number?, retain]
  induction ms.present with
  | nil => simp
  | cons entry rest ih =>
    obtain ⟨other, number⟩ := entry
    by_cases hmem : other.source ∈ sources
    · rw [List.filter_cons_of_pos (by simpa using hmem)]
      by_cases hbox : other = box
      · subst hbox
        rw [if_pos hmem, List.find?_cons_of_pos (by simp), List.find?_cons_of_pos (by simp)]
      · rw [List.find?_cons_of_neg (by simpa using hbox),
          List.find?_cons_of_neg (by simpa using hbox), ih]
    · rw [List.filter_cons_of_neg (by simpa using hmem), ih]
      by_cases hbox : other = box
      · subst hbox
        rw [if_neg hmem, if_neg hmem]
      · rw [List.find?_cons_of_neg (by simpa using hbox)]

theorem WellFormed.retain (h : ms.WellFormed) (sources : List String) :
    (ms.retain sources).WellFormed := by
  have hkept : ∀ {box number}, (ms.retain sources).number? box = some number →
      ms.number? box = some number := by
    intro box number hbox
    rw [number?_retain] at hbox
    split at hbox
    · exact hbox
    · cases hbox
  exact ⟨fun box number hbox => h.lt_length box number (hkept hbox),
    fun box other number hbox hother => h.injective box other number (hkept hbox) (hkept hother)⟩

/-- A mailbox that is not dropped keeps what waits in it. -/
theorem waiting_retain {sources : List String} (h : box.source ∈ sources) :
    (ms.retain sources).waiting box = ms.waiting box := by
  rw [waiting, number?_retain, if_pos h]
  rfl

end Collective.Mailboxes
