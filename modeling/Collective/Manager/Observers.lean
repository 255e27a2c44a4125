import Collective.Address.Basic
import Collective.Table

/-!
# Observers

Observers hear of the messages that reach a manager. One of them can be bound to a source; a later
one takes its place. Any number hear of every message. A registration can be withdrawn, which ends
that registration and no other.
-/

namespace Collective

/-- The observers of a manager; `ω` is what stands for one. -/
structure Observers (ω : Type) where
  /-- The observer bound to each source, with the number of its registration. -/
  bound : Table Address (Nat × ω)
  /-- The observers of every message in the order of their registration. -/
  everywhere : List (Nat × ω)
  /-- The number of the next registration. -/
  next : Nat
  deriving DecidableEq, Repr

/-- A registration, by which it can be withdrawn. -/
inductive Registration where
  | bound (source : Address) (number : Nat)
  | everywhere (number : Nat)
  deriving DecidableEq, Repr

namespace Observers

variable {ω : Type}

/-- No observers. -/
def empty : Observers ω := ⟨.empty, [], 1⟩

/-- Binds an observer to a source. -/
def observe (o : Observers ω) (source : Address) (observer : ω) : Observers ω × Registration :=
  ({ o with bound := o.bound.insert source (o.next, observer), next := o.next + 1 },
    .bound source o.next)

/-- Registers an observer of every message. -/
def observeAll (o : Observers ω) (observer : ω) : Observers ω × Registration :=
  ({ o with everywhere := o.everywhere ++ [(o.next, observer)], next := o.next + 1 },
    .everywhere o.next)

/-- Withdraws a registration. -/
def withdraw (o : Observers ω) : Registration → Observers ω
  | .bound source number =>
    match o.bound.get? source with
    | some (present, _) =>
      if present = number then { o with bound := o.bound.erase source } else o
    | none => o
  | .everywhere number => { o with everywhere := o.everywhere.filter (·.1 ≠ number) }

/-- No observers are left, and the numbers go on. -/
def clear (o : Observers ω) : Observers ω := { o with bound := .empty, everywhere := [] }

/-- The observer that hears of what a source sends, and of its failure. -/
def boundTo (o : Observers ω) (source : Address) : Option ω := (o.bound.get? source).map (·.2)

/-- The observers that hear of a message from a source, in the order in which they do. -/
def hearing (o : Observers ω) (source : Address) : List ω :=
  (o.boundTo source).toList ++ o.everywhere.map (·.2)

@[simp] theorem hearing_observeAll (o : Observers ω) (source : Address) (observer : ω) :
    (o.observeAll observer).1.hearing source = o.hearing source ++ [observer] := by
  simp [hearing, observeAll, boundTo]

end Observers

end Collective
