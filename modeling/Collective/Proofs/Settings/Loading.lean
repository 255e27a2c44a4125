import Collective.Proofs.Answer
import Collective.Proofs.Settings.Effective
import Mathlib

/-!
# Loading settings

The settings of a part load exactly if the effective value of each of its fields is of the type and
in the range of the field, and they obey the rules of the part; then they are those values. So a
wrong value does no harm below one that hides it, and neither do the sections and variables of other
parts.
-/

namespace Collective.Settings

open Value (Gives Like find?)

/-! ## Values -/

namespace Value

theorem string_eq_ok_iff {v : Value} {s : String} : v.string = .ok s ↔ v = .text s := by
  cases v <;> simp [string]

theorem flag_eq_ok_iff {v : Value} {b : Bool} : v.flag = .ok b ↔ v = .bool b := by
  cases v <;> simp [flag]

theorem natural_eq_ok_iff {bound : Nat} {v : Value} {n : Nat} :
    v.natural bound = .ok n ↔ v = .integer n ∧ n < bound := by
  cases v with
  | integer i =>
    rw [natural]
    split
    · simp only [Except.ok.injEq, integer.injEq]
      omega
    · simp only [reduceCtorEq, integer.injEq, false_iff]
      omega
  | _ => simp [natural]

theorem optional_eq_ok_iff {bound : Nat} {v : Value} {n : Option Nat} :
    v.optional (natural bound) = .ok n ↔
      v = (n.map (.integer ·)).getD .null ∧ ∀ m, n = some m → m < bound := by
  have hmap : (natural bound v).map some = .ok n ↔
      ∃ m : Nat, n = some m ∧ v = .integer m ∧ m < bound := by
    simp only [← natural_eq_ok_iff]
    cases natural bound v <;> simp [Except.map, eq_comm]
  cases v with
  | null => cases n <;> simp [optional]
  | _ =>
    rw [optional]
    · rw [hmap]
      cases n <;> simp
    · exact nofun

/-- What a reader that takes no table reads from values that are alike is the same. -/
theorem Like.read_eq {α : Type} {read : Value → Except Mismatch α}
    (hread : ∀ entries, read (.table entries) = .error .type) {v w : Value} (h : Like v w) :
    read v = read w := by
  cases h with
  | refl => rfl
  | tables entries others => rw [hread, hread]

end Value

/-! ## Fields -/

namespace Section

variable {α : Type} {name field : String} {fields : List (String × Value)}
  {values : String → Option Value}

/-- The section of a name that a table says is found. -/
theorem exists_find {v : Value} (h : Gives name v values) :
    ∃ fields, Section.find name v = .ok ⟨name, .inl fields⟩ ∧
      ∀ field, Option.Rel Like (find? field fields) (values field) := by
  have hvalues := h.values
  simp only [Value.at?_field] at hvalues
  rw [Section.find]
  cases hsection : Value.at? [name] v with
  | none =>
    rw [hsection] at hvalues
    exact ⟨[], rfl, hvalues⟩
  | some value =>
    obtain ⟨fields, rfl, -⟩ := h.fields hsection
    rw [hsection] at hvalues
    refine ⟨fields, rfl, fun field => ?_⟩
    rw [← Value.at?_name]
    exact hvalues field

/-- A field that has a value is read from it. -/
theorem field_eq_ok_iff (read : Value → Except Mismatch α)
    (hread : ∀ entries, read (.table entries) = .error .type)
    (hfields : ∀ field, Option.Rel Like (find? field fields) (values field))
    (hset : (values field).isSome) (position : Nat) (default a : α) :
    (Section.mk name (.inl fields)).field position field read default = .ok a ↔
      ∃ value, values field = some value ∧ read value = .ok a := by
  obtain ⟨value, hvalue⟩ := Option.isSome_iff_exists.1 hset
  have hfield := hfields field
  rw [hvalue] at hfield ⊢
  simp only [Section.field, Section.value?, Option.some.injEq, exists_eq_left']
  generalize find? field fields = found at hfield ⊢
  cases hfield with
  | some hlike =>
    simp only [Option.map_some, hlike.read_eq hread]
    cases read value <;> simp

end Section

namespace Sources

/-! ## Parts -/

theorem isSome_effective? (s : Sources) {part : Part} {field : String} (h : field ∈ part.fields) :
    (s.effective? part field).isSome := by
  have hdefault : (find? field part.usual).isSome := by
    revert field
    cases part <;> decide
  simp [effective?, hdefault]

/-- The effective values of the fields are of their types, in their ranges and those of the settings
of links given. -/
structure GivesTransport (s : Sources) (t : TransportSettings) : Prop where
  host : s.effective? .transport "host" = some (.text t.host)
  port : s.effective? .transport "port" = some (.integer t.port)
  port_lt : t.port < 2 ^ 16
  maxFrameSize : s.effective? .transport "max_frame_size" = some (.integer t.maxFrameSize)
  maxFrameSize_lt : t.maxFrameSize < 2 ^ 64
  connectTimeoutMs :
    s.effective? .transport "connect_timeout_ms" = some (.integer t.connectTimeoutMs)
  connectTimeoutMs_lt : t.connectTimeoutMs < 2 ^ 64
  nodelay : s.effective? .transport "nodelay" = some (.bool t.nodelay)
  keepaliveSecs : s.effective? .transport "keepalive_secs" = some (.integer t.keepaliveSecs)
  keepaliveSecs_lt : t.keepaliveSecs < 2 ^ 64

/-- The effective values of the fields are of their types, in their ranges and those of the settings
of groups given. -/
structure GivesGroup (s : Sources) (g : GroupSettings) : Prop where
  fanOut : s.effective? .group "fan_out" = some (.integer g.fanOut)
  fanOut_lt : g.fanOut < 2 ^ 64
  receiveTimeoutMs : s.effective? .group "receive_timeout_ms" =
    some ((g.receiveTimeoutMs.map (.integer ·)).getD .null)
  receiveTimeoutMs_lt : ∀ limit, g.receiveTimeoutMs = some limit → limit < 2 ^ 64

section

variable {s : Sources} {part : Part} {fields : List (String × Value)} {name field : String}

theorem string_field (h : ∀ field, Option.Rel Like (find? field fields) (s.effective? part field))
    (hfield : field ∈ part.fields) {position : Nat} {default text : String} :
    (Section.mk name (.inl fields)).field position field Value.string default = .ok text ↔
      s.effective? part field = some (.text text) := by
  simp only [Section.field_eq_ok_iff Value.string (fun _ => rfl) h (s.isSome_effective? hfield),
    Value.string_eq_ok_iff, exists_eq_right]

theorem flag_field (h : ∀ field, Option.Rel Like (find? field fields) (s.effective? part field))
    (hfield : field ∈ part.fields) {position : Nat} {default flag : Bool} :
    (Section.mk name (.inl fields)).field position field Value.flag default = .ok flag ↔
      s.effective? part field = some (.bool flag) := by
  simp only [Section.field_eq_ok_iff Value.flag (fun _ => rfl) h (s.isSome_effective? hfield),
    Value.flag_eq_ok_iff, exists_eq_right]

theorem natural_field (h : ∀ field, Option.Rel Like (find? field fields) (s.effective? part field))
    (hfield : field ∈ part.fields) {position bound default n : Nat} :
    (Section.mk name (.inl fields)).field position field (Value.natural bound) default = .ok n ↔
      s.effective? part field = some (.integer n) ∧ n < bound := by
  simp only [Section.field_eq_ok_iff (Value.natural bound) (fun _ => rfl) h
    (s.isSome_effective? hfield), Value.natural_eq_ok_iff, existsAndEq, true_and]

theorem optional_field
    (h : ∀ field, Option.Rel Like (find? field fields) (s.effective? part field))
    (hfield : field ∈ part.fields) {position bound : Nat} {default n : Option Nat} :
    (Section.mk name (.inl fields)).field position field (Value.optional (Value.natural bound))
        default = .ok n ↔
      s.effective? part field = some ((n.map (.integer ·)).getD .null) ∧
        ∀ m, n = some m → m < bound := by
  simp only [Section.field_eq_ok_iff (Value.optional (Value.natural bound)) (fun _ => rfl) h
    (s.isSome_effective? hfield), Value.optional_eq_ok_iff, existsAndEq, true_and]

end

theorem readTransport_eq_ok_iff {s : Sources} {fields : List (String × Value)}
    (h : ∀ field, Option.Rel Like (find? field fields) (s.effective? .transport field))
    (name : String) (t : TransportSettings) :
    readTransport ⟨name, .inl fields⟩ = .ok t ↔ s.GivesTransport t := by
  simp (disch := decide) only [readTransport, bind_eq_ok_iff, string_field h, natural_field h,
    flag_field h]
  constructor
  · rintro ⟨host, hhost, port, ⟨hport, hportLt⟩, maxFrameSize, ⟨hmaxFrameSize, hmaxFrameSizeLt⟩,
      connectTimeoutMs, ⟨hconnectTimeoutMs, hconnectTimeoutMsLt⟩, nodelay, hnodelay,
      keepaliveSecs, ⟨hkeepaliveSecs, hkeepaliveSecsLt⟩, hsettings⟩
    obtain rfl := Except.ok.inj hsettings
    exact ⟨hhost, hport, hportLt, hmaxFrameSize, hmaxFrameSizeLt, hconnectTimeoutMs,
      hconnectTimeoutMsLt, hnodelay, hkeepaliveSecs, hkeepaliveSecsLt⟩
  · intro hgives
    exact ⟨_, hgives.host, _, ⟨hgives.port, hgives.port_lt⟩, _,
      ⟨hgives.maxFrameSize, hgives.maxFrameSize_lt⟩, _,
      ⟨hgives.connectTimeoutMs, hgives.connectTimeoutMs_lt⟩, _, hgives.nodelay, _,
      ⟨hgives.keepaliveSecs, hgives.keepaliveSecs_lt⟩, rfl⟩

theorem readGroup_eq_ok_iff {s : Sources} {fields : List (String × Value)}
    (h : ∀ field, Option.Rel Like (find? field fields) (s.effective? .group field))
    (name : String) (g : GroupSettings) :
    readGroup ⟨name, .inl fields⟩ = .ok g ↔ s.GivesGroup g := by
  simp (disch := decide) only [readGroup, bind_eq_ok_iff, natural_field h, optional_field h]
  constructor
  · rintro ⟨fanOut, ⟨hfanOut, hfanOutLt⟩, limit, ⟨hlimit, hlimitLt⟩, hsettings⟩
    obtain rfl := Except.ok.inj hsettings
    exact ⟨hfanOut, hfanOutLt, hlimit, hlimitLt⟩
  · intro hgives
    exact ⟨_, ⟨hgives.fanOut, hgives.fanOut_lt⟩, _,
      ⟨hgives.receiveTimeoutMs, hgives.receiveTimeoutMs_lt⟩, rfl⟩

/-- The section of a part has the effective values of its fields. -/
theorem exists_sectionOf {s : Sources} {part : Part} (h : s.Proper part) :
    ∃ fields, s.sectionOf part = .ok ⟨part.name, .inl fields⟩ ∧
      ∀ field, Option.Rel Like (find? field fields) (s.effective? part field) := by
  obtain ⟨v, hlayered, hgives⟩ := gives_layered h
  obtain ⟨fields, hfind, hvalues⟩ := Section.exists_find hgives
  exact ⟨fields, by rw [sectionOf, hlayered]; exact hfind, hvalues⟩

theorem checked_eq_ok_iff {α : Type} {violations : List Violation} {a b : α} :
    checked violations a = .ok b ↔ violations = [] ∧ a = b := by
  cases violations <;> simp [checked]

theorem transport_eq_ok_iff {s : Sources} (h : s.Proper .transport) (t : TransportSettings) :
    s.transport = .ok t ↔
      s.GivesTransport t ∧ t.host ≠ "" ∧ 64 ≤ t.maxFrameSize ∧ 1 ≤ t.connectTimeoutMs := by
  obtain ⟨fields, hsection, hfields⟩ := exists_sectionOf h
  rw [← t.violations_eq_nil_iff, ← readTransport_eq_ok_iff hfields Part.transport.name]
  simp only [transport, hsection, bind_eq_ok_iff, checked_eq_ok_iff, List.map_eq_nil_iff,
    Except.ok.injEq, exists_eq_left', exists_eq_right_right]

theorem group_eq_ok_iff {s : Sources} (h : s.Proper .group) (g : GroupSettings) :
    s.group = .ok g ↔ s.GivesGroup g ∧ 1 ≤ g.fanOut := by
  obtain ⟨fields, hsection, hfields⟩ := exists_sectionOf h
  rw [← g.violations_eq_nil_iff, ← readGroup_eq_ok_iff hfields Part.group.name]
  simp only [group, hsection, bind_eq_ok_iff, checked_eq_ok_iff, Except.ok.injEq, exists_eq_left',
    exists_eq_right_right]

/-! ## Loading -/

/-- Settings are loaded field by field and part by part. Where the sources speak of a part in terms
of its fields, loading it succeeds exactly if the effective values of the fields, those of the
highest sources that set them, are of the types and in the ranges of the fields and obey the rules
of the part; and then these are the settings. What the file says in the section of the other part,
and what variables with its mark say, does not change the outcome in any case. -/
theorem loading_by_fields (s : Sources) :
    (s.Proper .transport → ∀ t, s.transport = .ok t ↔
      s.GivesTransport t ∧ t.host ≠ "" ∧ 64 ≤ t.maxFrameSize ∧ 1 ≤ t.connectTimeoutMs) ∧
    (s.Proper .group → ∀ g, s.group = .ok g ↔ s.GivesGroup g ∧ 1 ≤ g.fanOut) ∧
    (∀ t, AgreeOutside .transport s t → s.group = t.group) ∧
    ∀ t, AgreeOutside .group s t → s.transport = t.transport := by
  refine ⟨transport_eq_ok_iff, group_eq_ok_iff, fun t hagree => ?_, fun t hagree => ?_⟩
  · rw [group, group, hagree.sectionOf_eq (by decide)]
  · rw [transport, transport, hagree.sectionOf_eq (by decide)]

namespace Masked

/-- A file with values of wrong types that variables and an override hide. -/
def sources : Sources where
  file := "[transport]\nhost = true\nport = 'any'\n[group]\nfan_out = 'two'\n"
  environment := [("CANOPY_TRANSPORT_HOST", "10.0.0.4"), ("canopy_group_fan_out", "3")]
  overrides := [("transport.port", .integer 7000)]

/-- The same with a section of links that is no table, and one more variable of links. -/
def otherLinks : Sources where
  file := "transport = 1\n[group]\nfan_out = 'two'\n"
  environment := ("CANOPY_TRANSPORT_NODELAY", "perhaps") :: sources.environment
  overrides := sources.overrides

/-- The same without a section of groups, and with one more variable of groups. -/
def otherGroups : Sources where
  file := "[transport]\nhost = true\nport = 'any'\n"
  environment := sources.environment ++ [("CANOPY_GROUP_FAN_OUT", "0")]
  overrides := sources.overrides

theorem parse?_sources : Toml.parse? sources.file = some (.table
    [("transport", .table [("host", .bool true), ("port", .text "any")]),
      ("group", .table [("fan_out", .text "two")])]) := by
  cbv

theorem parse?_otherLinks : Toml.parse? otherLinks.file = some (.table
    [("transport", .integer 1), ("group", .table [("fan_out", .text "two")])]) := by
  cbv

theorem parse?_otherGroups : Toml.parse? otherGroups.file = some (.table
    [("transport", .table [("host", .bool true), ("port", .text "any")])]) := by
  cbv

theorem proper_sources (part : Part) : sources.Proper part where
  file := by
    refine ⟨_, parse?_sources, fun v hv => ?_⟩
    rw [Value.at?_name] at hv
    cases part <;> exact ⟨_, (Option.some.inj hv).symm⟩
  environment := by
    rw [Part.Addressed]
    cases part <;> decide
  overrides entry hentry := by
    obtain rfl := List.mem_singleton.1 hentry
    exact ⟨.transport, "port", by decide, by decide⟩

theorem agree_otherLinks : AgreeOutside .transport sources otherLinks where
  file := by
    rw [parse?_sources, parse?_otherLinks]
    refine .some fun other hother => ?_
    have hname : "transport" ≠ other := hother.symm
    simp only [Value.at?_name, Value.find?_cons, if_neg hname]
  environment := by decide
  overrides := rfl

theorem agree_otherGroups : AgreeOutside .group sources otherGroups where
  file := by
    rw [parse?_sources, parse?_otherGroups]
    refine .some fun other hother => ?_
    have hname : "group" ≠ other := hother.symm
    simp only [Value.at?_name, Value.find?_cons, if_neg hname]
  environment := by decide
  overrides := rfl

theorem inFile?_sources (part : Part) (field : String) :
    sources.inFile? part field = Value.at? [part.name, field] (.table
      [("transport", .table [("host", .bool true), ("port", .text "any")]),
        ("group", .table [("fan_out", .text "two")])]) := by
  rw [inFile?, parse?_sources, Option.bind_some]

theorem loading_by_fields_masked :
    sources.transport = .ok { host := "10.0.0.4", port := 7000 } ∧
      sources.group = .ok { fanOut := 3 } ∧
      otherLinks.group = .ok { fanOut := 3 } ∧
      otherGroups.transport = .ok { host := "10.0.0.4", port := 7000 } := by
  obtain ⟨hlinks, hgroups, hotherLinks, hotherGroups⟩ := loading_by_fields sources
  have hgives : sources.GivesTransport { host := "10.0.0.4", port := 7000 } := by
    refine ⟨?_, ?_, by decide, ?_, by decide, ?_, by decide, ?_, ?_, by decide⟩ <;>
      (rw [effective?, inFile?_sources]; cbv)
  have htransport := (hlinks (proper_sources .transport) _).2 ⟨hgives, by decide⟩
  have hgivesGroup : sources.GivesGroup { fanOut := 3 } := by
    refine ⟨?_, by decide, ?_, fun _ hlimit => by cases hlimit⟩ <;>
      (rw [effective?, inFile?_sources]; cbv)
  have hgroup := (hgroups (proper_sources .group) _).2 ⟨hgivesGroup, by decide⟩
  exact ⟨htransport, hgroup, hotherLinks _ agree_otherLinks ▸ hgroup,
    hotherGroups _ agree_otherGroups ▸ htransport⟩

end Masked

end Sources

end Collective.Settings
