import Collective.Proofs.Group.Run

/-!
# Schedules

A schedule says which task moves next. Playing one takes the calls from the script, so it is a
computation that comes to one state or gets stuck; the states to which schedules come are those of
the runs that follow the script.
-/

namespace Collective.System

variable {β : Type}

/-- A step of a group that follows a script. -/
inductive Move where
  /-- A client begins the next call of its script. -/
  | begin (client : Nat)
  | send (job : Nat)
  | hold (job : Nat) (source : String)
  | take (job : Nat) (source : String)
  | deliver (letter : Nat)
  deriving DecidableEq, Repr

/-- The event of a move, if the script has a call for it. -/
def Move.event? (script : Nat → List (Job β)) (s : System β) : Move → Option (Event β)
  | .begin client =>
    if s.isIdle client then ((script client)[(s.jobsOf client).length]?).map .begin else none
  | .send job => some (.send job)
  | .hold job source => some (.hold job source)
  | .take job source => some (.take job source)
  | .deliver letter => some (.deliver letter)

/-- The system to which a schedule comes. -/
def play? (script : Nat → List (Job β)) : List Move → System β → Option (System β)
  | [], s => some s
  | move :: rest, s =>
    ((move.event? script s).bind s.step?).bind (play? script rest)

variable {script : Nat → List (Job β)} {s t start : System β}

theorem play?_append (first second : List Move) (s : System β) :
    play? script (first ++ second) s = (play? script first s).bind (play? script second) := by
  induction first generalizing s with
  | nil => rfl
  | cons move rest ih =>
    rw [List.cons_append, play?, play?, Option.bind_assoc ((move.event? script s).bind s.step?)]
    exact congrArg _ (funext ih)

theorem follows_of_event? (hscript : ∀ i, ∀ job ∈ script i, job.client = i) {move : Move}
    {event : Event β} (h : move.event? script s = some event) : s.Follows script event := by
  cases move with
  | begin client =>
    rw [Move.event?] at h
    split at h
    · next hidle =>
      obtain ⟨job, hjob, rfl⟩ := Option.map_eq_some_iff.1 h
      obtain rfl := hscript client job (List.mem_of_getElem? hjob)
      exact ⟨hidle, hjob⟩
    · cases h
  | send =>
    obtain rfl := Option.some.inj h
    trivial
  | hold =>
    obtain rfl := Option.some.inj h
    trivial
  | take =>
    obtain rfl := Option.some.inj h
    trivial
  | deliver =>
    obtain rfl := Option.some.inj h
    trivial

theorem exists_move_of_follows {event : Event β} (h : s.Follows script event) :
    ∃ move : Move, move.event? script s = some event := by
  cases event with
  | begin job =>
    obtain ⟨hidle, hnext⟩ := h
    refine ⟨.begin job.client, ?_⟩
    rw [Move.event?, if_pos hidle, hnext]
    rfl
  | send job => exact ⟨.send job, rfl⟩
  | hold job source => exact ⟨.hold job source, rfl⟩
  | take job source => exact ⟨.take job source, rfl⟩
  | deliver letter => exact ⟨.deliver letter, rfl⟩
  | giveUp => cases h
  | reconfigure => cases h
  | install => cases h
  | shutdown => cases h

/-- Schedules come to the states of the runs that follow the script, and to no others. -/
theorem reachable_iff_play? (hscript : ∀ i, ∀ job ∈ script i, job.client = i) :
    Reachable (Follows script) start s ↔ ∃ moves, play? script moves start = some s := by
  constructor
  · intro h
    induction h with
    | start => exact ⟨[], rfl⟩
    | @step s t event _ hallowed ht ih =>
      obtain ⟨moves, hmoves⟩ := ih
      obtain ⟨move, hmove⟩ := exists_move_of_follows hallowed
      refine ⟨moves ++ [move], ?_⟩
      rw [play?_append, hmoves, Option.bind_some, play?, hmove, Option.bind_some, ht]
      rfl
  · rintro ⟨moves, hmoves⟩
    suffices h : ∀ u, Reachable (Follows script) start u → play? script moves u = some s →
        Reachable (Follows script) start s from h start .start hmoves
    clear hmoves
    induction moves with
    | nil =>
      rintro u hu h
      obtain rfl := Option.some.inj h
      exact hu
    | cons move rest ih =>
      intro u hu h
      obtain ⟨t, ht, hrest⟩ := Option.bind_eq_some_iff.1 h
      obtain ⟨event, hevent, ht⟩ := Option.bind_eq_some_iff.1 ht
      exact ih t (hu.step (follows_of_event? hscript hevent) ht) hrest

end Collective.System
