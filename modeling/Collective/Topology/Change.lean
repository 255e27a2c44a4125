import Collective.Topology.Basic

/-!
# Changes of the members

The members of a tree change one at a time: a task joins, is replaced or leaves. Changes that belong
together are made until one fails. A history goes on behind a change that failed; `after` is the
tree that it leaves.
-/

namespace Collective

/-- A change of the members of a group. -/
inductive MemberChange where
  | add (task : String)
  | replace (failed replacement : String)
  | remove (task : String)
  deriving DecidableEq, Repr

/-- Attempts made one after the other, until one fails. -/
def attemptAll (attempt : σ → χ → Except ε Unit × σ) (s : σ) : List χ → Except ε Unit × σ
  | [] => (.ok (), s)
  | change :: rest =>
    match attempt s change with
    | (.ok (), s) => attemptAll attempt s rest
    | failed => failed

namespace Topology

/-- The tree after a change. -/
def change (t : Topology) : MemberChange → Except MembershipError Unit × Topology
  | .add task => t.add task
  | .replace failed replacement => t.replace failed replacement
  | .remove task => t.remove task

/-- The tree that a history of changes leaves behind. -/
def after (t : Topology) (history : List MemberChange) : Topology :=
  history.foldl (fun t c => (t.change c).2) t

end Topology

end Collective
