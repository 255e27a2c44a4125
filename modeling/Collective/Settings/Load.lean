import Collective.Settings.Basic
import Collective.Settings.Environment
import Collective.Toml.Document

/-!
# Loading settings

Four sources say what the settings are, each above the one before: the defaults, a file, the
environment and overrides. They are laid over one another as tables with a section for each part,
and the settings of a part are read from its section. Fields are read in the order of their
declaration, and the first that cannot be read is reported.
-/

namespace Collective.Settings

/-- Why a value is not that of a setting. -/
inductive Mismatch where
  /-- The value is of another type. -/
  | type
  /-- The value is an integer beyond the bounds. -/
  | range
  deriving DecidableEq, Repr

/-- Why settings could not be loaded. -/
inductive LoadError where
  /-- The file is no table in its notation. -/
  | file
  /-- The value under a key is not that of a setting. -/
  | mismatch (key : String) (why : Mismatch)
  /-- Rules are broken. -/
  | invalid (violations : List Violation)
  deriving DecidableEq, Repr

/-- What says what the settings are. -/
structure Sources where
  /-- The text of the file, empty if there is none. -/
  file : String := ""
  environment : List (String × String) := []
  /-- Values under keys, whose names points separate. -/
  overrides : List (String × Value) := []

/-! ## Layers -/

namespace Part

/-- The fields of a part under their names, with the values that they have by default. -/
def usual : Part → List (String × Value)
  | .transport =>
    let settings : TransportSettings := {}
    [("host", .text settings.host), ("port", .integer settings.port),
      ("max_frame_size", .integer settings.maxFrameSize),
      ("connect_timeout_ms", .integer settings.connectTimeoutMs),
      ("nodelay", .bool settings.nodelay), ("keepalive_secs", .integer settings.keepaliveSecs)]
  | .group =>
    let settings : GroupSettings := {}
    [("fan_out", .integer settings.fanOut),
      ("receive_timeout_ms", (settings.receiveTimeoutMs.map (.integer ·)).getD .null)]

/-- What the defaults of a part say. -/
def defaults (part : Part) : Value := .table [(part.name, .table part.usual)]

end Part

namespace Sources

/-- The table that an override stands for. A name that is empty ends its key. -/
def override? (key : String) (value : Value) : Option Value :=
  let names := (Environment.parts key.toList).takeWhile (! ·.isEmpty)
  match Value.nest (names.map String.ofList) value with
  | .table entries => some (.table entries)
  | _ => none

/-- What lies below the overrides, from what the file says. The settings of groups are read from
all that those of links are read from, with their defaults below it and their variables above. -/
def layers (s : Sources) (file : Value) : Part → Value
  | .transport => links
  | .group => (Part.group.defaults.overlay links).overlay (Environment.layer .group s.environment)
where
  /-- What lies below the overrides of the settings of links. -/
  links : Value :=
    (Part.transport.defaults.overlay file).overlay (Environment.layer .transport s.environment)

/-- The layers with an override above them. Of two that say nothing sensible the upper one is
reported. -/
def addOverride (below : Except LoadError Value) : String × Value → Except LoadError Value
  | (key, value) =>
    match override? key value, below with
    | some table, .ok low => .ok (low.overlay table)
    | some _, .error e => .error e
    | none, _ => .error (.mismatch "" .type)

/-- The sources of a part laid over one another. -/
def layered (s : Sources) (part : Part) : Except LoadError Value :=
  let below : Except LoadError Value := match Toml.parse? s.file with
    | some file => .ok (s.layers file part)
    | none => .error .file
  s.overrides.foldl addOverride below

end Sources

/-! ## Reading -/

namespace Value

/-- An integer below a bound. -/
def natural (bound : Nat) : Value → Except Mismatch Nat
  | .integer i => if 0 ≤ i ∧ i < bound then .ok i.toNat else .error .range
  | _ => .error .type

/-- A truth value. -/
def flag : Value → Except Mismatch Bool
  | .bool b => .ok b
  | _ => .error .type

/-- A text. -/
def string : Value → Except Mismatch String
  | .text s => .ok s
  | _ => .error .type

/-- A value that may be absent. -/
def optional (read : Value → Except Mismatch α) : Value → Except Mismatch (Option α)
  | .null => .ok none
  | value => (read value).map some

end Value

/-- The values of a section: a table gives them by name, a list by position. -/
structure Section where
  name : String
  values : List (String × Value) ⊕ List Value

namespace Section

/-- The section of a name. One that no source sets is empty. -/
def find (name : String) (value : Value) : Except LoadError Section :=
  match Value.at? [name] value with
  | none => .ok ⟨name, .inl []⟩
  | some (.table entries) => .ok ⟨name, .inl entries⟩
  | some (.list items) => .ok ⟨name, .inr items⟩
  | some _ => .error (.mismatch name .type)

/-- The value of a field and the name it goes by, if a source sets it. -/
def value? (s : Section) (position : Nat) (field : String) : Option (String × Value) :=
  match s.values with
  | .inl entries => (Value.find? field entries).map (field, ·)
  | .inr items => items[position]?.map (toString position, ·)

/-- A field, or its default if no source sets it. -/
def field (s : Section) (position : Nat) (name : String) (read : Value → Except Mismatch α)
    (default : α) : Except LoadError α :=
  match s.value? position name with
  | none => .ok default
  | some (called, value) =>
    match read value with
    | .ok a => .ok a
    | .error why => .error (.mismatch (s.name ++ "." ++ called) why)

end Section

namespace Sources

/-- The section of a part in what the sources come to. -/
def sectionOf (s : Sources) (part : Part) : Except LoadError Section := do
  Section.find part.name (← s.layered part)

/-- The settings of links, before their rules are checked. -/
def readTransport (s : Section) : Except LoadError TransportSettings := do
  let usual : TransportSettings := {}
  let host ← s.field 0 "host" Value.string usual.host
  let port ← s.field 1 "port" (Value.natural (2 ^ 16)) usual.port
  let maxFrameSize ← s.field 2 "max_frame_size" (Value.natural (2 ^ 64)) usual.maxFrameSize
  let connectTimeoutMs ←
    s.field 3 "connect_timeout_ms" (Value.natural (2 ^ 64)) usual.connectTimeoutMs
  let nodelay ← s.field 4 "nodelay" Value.flag usual.nodelay
  let keepaliveSecs ← s.field 5 "keepalive_secs" (Value.natural (2 ^ 64)) usual.keepaliveSecs
  return { host, port, maxFrameSize, connectTimeoutMs, nodelay, keepaliveSecs }

/-- The settings of groups, before their rules are checked. -/
def readGroup (s : Section) : Except LoadError GroupSettings := do
  let usual : GroupSettings := {}
  let fanOut ← s.field 0 "fan_out" (Value.natural (2 ^ 64)) usual.fanOut
  let receiveTimeoutMs ← s.field 1 "receive_timeout_ms"
    (Value.optional (Value.natural (2 ^ 64))) usual.receiveTimeoutMs
  return { fanOut, receiveTimeoutMs }

/-- Settings, unless they break rules. -/
def checked (violations : List Violation) (settings : α) : Except LoadError α :=
  match violations with
  | [] => .ok settings
  | vs => .error (.invalid vs)

/-- The settings of links. Rules are named by section and setting. -/
def transport (s : Sources) : Except LoadError TransportSettings := do
  let settings ← readTransport (← s.sectionOf .transport)
  checked (settings.violations.map fun v => { v with setting := "transport." ++ v.setting }) settings

/-- The settings of groups. -/
def group (s : Sources) : Except LoadError GroupSettings := do
  let settings ← readGroup (← s.sectionOf .group)
  checked settings.violations settings

end Sources

end Collective.Settings
