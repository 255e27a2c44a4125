/-!
# Settings

The settings of links and those of groups, with the values they have when no source says
otherwise, and the rules that they obey. `violations` lists the rules broken.
-/

namespace Collective

namespace Settings

/-- The parts of the settings. Each has a section of the sources to itself. -/
inductive Part where
  | transport
  | group
  deriving DecidableEq, Repr

namespace Part

/-- The name of the section. -/
def name : Part → String
  | .transport => "transport"
  | .group => "group"

/-- The mark of the variables that belong to the section. -/
def mark : Part → String
  | .transport => "CANOPY_TRANSPORT_"
  | .group => "CANOPY_GROUP_"

end Part

/-- A rule on the value of a setting. -/
inductive Rule where
  /-- The number is not too small. -/
  | range
  /-- The text is not empty. -/
  | length
  deriving DecidableEq, Repr

/-- A setting that breaks a rule. -/
structure Violation where
  setting : String
  rule : Rule
  deriving DecidableEq, Repr

end Settings

/-- The settings of links. -/
structure TransportSettings where
  /-- The interface that is bound and published. -/
  host : String := "127.0.0.1"
  /-- The port that is bound; zero leaves the choice open. -/
  port : Nat := 0
  /-- The longest frame sent or accepted. -/
  maxFrameSize : Nat := 16 * 1024 * 1024
  connectTimeoutMs : Nat := 5000
  /-- Small frames are sent without delay. -/
  nodelay : Bool := true
  /-- The time after which an idle peer is probed; zero means never. -/
  keepaliveSecs : Nat := 60
  deriving DecidableEq, Repr

/-- The settings of groups. -/
structure GroupSettings where
  /-- The greatest number of children of a task. -/
  fanOut : Nat := 2
  /-- The longest time that a receiver waits, if it does not wait forever. -/
  receiveTimeoutMs : Option Nat := none
  deriving DecidableEq, Repr

open Settings

namespace TransportSettings

/-- The rules broken. -/
def violations (s : TransportSettings) : List Violation :=
  (if s.host = "" then [⟨"host", .length⟩] else [])
    ++ (if s.maxFrameSize < 64 then [⟨"max_frame_size", .range⟩] else [])
    ++ (if s.connectTimeoutMs < 1 then [⟨"connect_timeout_ms", .range⟩] else [])

/-- The time after which an idle peer is probed. -/
def keepalive (s : TransportSettings) : Option Nat :=
  if s.keepaliveSecs = 0 then none else some s.keepaliveSecs

/-- The rules hold when the host is named, frames can be of some use and connecting takes time. -/
theorem violations_eq_nil_iff (s : TransportSettings) :
    s.violations = [] ↔ s.host ≠ "" ∧ 64 ≤ s.maxFrameSize ∧ 1 ≤ s.connectTimeoutMs := by
  simp [violations, Nat.one_le_iff_ne_zero]

end TransportSettings

namespace GroupSettings

/-- The rules broken. -/
def violations (s : GroupSettings) : List Violation :=
  if s.fanOut < 1 then [⟨"fan_out", .range⟩] else []

/-- The rules hold when a task may have a child. -/
theorem violations_eq_nil_iff (s : GroupSettings) : s.violations = [] ↔ 1 ≤ s.fanOut := by
  simp [violations, Nat.one_le_iff_ne_zero]

end GroupSettings

end Collective
