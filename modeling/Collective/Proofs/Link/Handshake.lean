import Collective.Proofs.Address.Reading
import Collective.Proofs.Json.Record
import Collective.Proofs.Manager.Loop
import Collective.Settings.Basic

/-!
# Handshakes in frames

A handshake is read as it was written, so the peer learns the address that the side which opened the
connection listens on. The length of its frame is that of the text of the address and of what stands
around it; only the addresses of IPv4 are sure to leave it below the least maximum that settings
may have.
-/

namespace Collective

open Json (IsRecord ReadsBack)

namespace Handshake

/-! ## Content -/

theorem isRecord_toJson (h : Handshake) :
    IsRecord [("version", some (.ofInt h.version.toNat)),
      ("address", some ((h.address.map Address.toJson).getD .null))] h.toJson :=
  .ofMembers _

theorem ofJson?_toJson (names : Address.Resolver) (h : Handshake) :
    ofJson? names h.toJson = some h := by
  have hfields := h.isRecord_toJson.fields?_eq (by simp)
  simp only [List.map_cons, List.map_nil] at hfields
  have hversion : (Json.ofInt h.version.toNat).nat? (2 ^ 16) = some h.version.toNat :=
    Json.nat?_ofInt h.version.toNat_lt
  have haddress : Json.optional? (Address.fromJson? names) ((h.address.map Address.toJson).getD .null) =
      some h.address := by
    cases haddress : h.address with
    | none => rfl
    | some a =>
      have hnull : a.toJson.isNull = false := rfl
      simp [Json.optional?, hnull, Address.fromJson?_toJson]
  simp [ofJson?, hfields, Json.Fields.required, Json.Fields.optional, Json.Fields.get?, hversion,
    haddress]

theorem readsBack_toJson (h : Handshake) : h.toJson.ReadsBack := by
  refine h.isRecord_toJson.readsBack ?_
  cases h.address <;> simp [ReadsBack.ofInt, ReadsBack.null, Address.toJson, ReadsBack.ofString]

theorem read_print (names : Address.Resolver) (home : Option Address) :
    read names (ofHome home).print = .ok (ofHome home) := by
  rw [read, print, (ofHome home).readsBack_toJson.parse?_print, Option.bind_some, ofJson?_toJson]
  exact if_pos rfl

/-! ## Length -/

/-- The characters of addresses have one byte each. -/
theorem length_encode_of_subset {text : String} (h : text.toList ⊆ Address.alphabet) :
    (Utf8.encode text).length = text.length := by
  have hall : Address.alphabet.all fun c => (String.utf8EncodeChar c).length == 1 := by decide
  have hone : ∀ c ∈ text.toList, (String.utf8EncodeChar c).length = 1 := fun c hc =>
    beq_iff_eq.1 (List.all_eq_true.1 hall c (h hc))
  rw [Utf8.encode, List.length_flatMap, List.map_congr_left hone, List.map_const',
    List.sum_replicate_nat, Nat.mul_one, String.length_toList]

theorem length_print_address (a : Address) : a.toJson.print.length = a.render.length + 2 := by
  have hrender := length_encode_of_subset a.render_subset
  have hquote : (String.utf8EncodeChar '"').length = 1 := by decide
  rw [Utf8.encode] at hrender
  simp [Address.print_toJson, Utf8.encode, hrender, hquote]
  omega

/-- What stands in front of the address. -/
def opening : List Json.Token :=
  [.openObject, .string (Json.Piece.ofText "version"), .colon, .number (.ofInt spoken.toNat),
    .comma, .string (Json.Piece.ofText "address"), .colon]

theorem length_opening : (opening.flatMap Json.Token.print).length = 23 := by
  have hversion : (Json.Number.ofInt spoken.toNat).print = [49] := by
    have hdigits : Json.Number.digitsOfNat 1 = [1] := by rw [Json.Number.digitsOfNat]; rfl
    simp [Json.Number.ofInt, spoken, Json.Number.print, hdigits]
    rfl
  simp only [opening, List.flatMap_cons, List.flatMap_nil, Json.Token.print, hversion]
  decide

/-- The length of a handshake. -/
def size : Option Address → Nat
  | none => 28
  | some a => 26 + a.render.length

theorem length_print (home : Option Address) : (ofHome home).print.length = size home := by
  have htokens : (ofHome home).toJson.tokens =
      opening ++ (((home.map Address.toJson).getD .null).tokens ++ [.closeObject]) := by
    simp [toJson, ofHome, opening, Json.ofMembers, Json.tokens, Json.tokensOfMembers, Json.ofInt]
  have hsum : (ofHome home).print.length =
      23 + (((home.map Address.toJson).getD .null).print.length + 1) := by
    rw [print, Json.print, htokens, List.flatMap_append, List.flatMap_append, List.length_append,
      List.length_append, length_opening]
    rfl
  cases home with
  | none =>
    have hnull : Json.null.print.length = 4 := by decide +kernel
    rw [hsum, Option.map_none, Option.getD_none, hnull, size]
  | some a =>
    have haddress := length_print_address a
    rw [hsum, Option.map_some, Option.getD_some, haddress, size]
    omega

theorem size_le_84 (home : Option Address) : size home ≤ 84 := by
  cases home with
  | none => decide
  | some a => exact Nat.add_le_add_left (a.length_render_le.trans a.widest_le) 26

theorem size_le_47 {home : Option Address} (h : ∀ a ∈ home, a.isV6 = false) :
    size home ≤ 47 := by
  match home with
  | none => decide
  | some (.v4 ip port) => exact Nat.add_le_add_left (Address.v4 ip port).length_render_le 26
  | some (.v6 _ _ _) => cases h _ rfl

/-- A handshake for which there is room is at the front of what is sent. -/
theorem opens_wire {home : Option Address} {max : Nat} (h : size home ≤ max)
    (names : Address.Resolver) (more : Bytes) :
    (ofHome home).Opens names max (Frame.wire (ofHome home).print ++ more) more := by
  refine ⟨_, ⟨?_, ?_⟩, rfl, read_print names home⟩
  · rwa [length_print]
  · rw [length_print]
    exact (size_le_84 home).trans_lt (by decide)

end Handshake

namespace Link

variable {home : Option Address} {max : Nat}

theorem opened_of_room (remote : Address) (h : Handshake.size home ≤ max) :
    opened remote home max = .ok (new remote max, Frame.wire (Handshake.ofHome home).print) := by
  rw [← Handshake.length_print] at h
  rw [opened, Frame.encode_eq_wire h]

theorem opened_of_no_room (remote : Address) (h : max < Handshake.size home) :
    opened remote home max =
      .error (.io ⟨.invalidData, (Frame.Oversize.mk (Handshake.size home) max).message⟩) := by
  rw [← Handshake.length_print] at h ⊢
  rw [opened, Frame.encode, if_pos h]

/-- An address whose text is as long as any. -/
def longest (scope : UInt32) : Address :=
  .v6 ⟨[0x2001, 0x1DB8, 0x85A3, 0x18D3, 0x1319, 0x8A2E, 0x1370, 0x7348], rfl⟩ 65535 scope

theorem forall_size_le_iff : (∀ home, Handshake.size home ≤ max) ↔ 84 ≤ max := by
  constructor
  · intro h
    have hlongest : Handshake.size (some (longest 4294967295)) = 84 := by decide +kernel
    exact hlongest ▸ h (some (longest 4294967295))
  · intro h home
    exact (Handshake.size_le_84 home).trans h

/-- A connection is opened exactly if there is room for the handshake. Then, whatever is sent behind
it, a peer with the same settings takes all that follows to come from the listener that the
handshake names. Settings that obey the rules have room for every handshake without an IPv6 address,
but for all handshakes only if they have room for 84 bytes. -/
theorem handshake_arrives {s : TransportSettings} (hs : s.violations = [])
    (home : Option Address) (remote peer : Address) :
    (Handshake.size home ≤ s.maxFrameSize → ∃ bytes,
      opened remote home s.maxFrameSize = .ok (new remote s.maxFrameSize, bytes) ∧
        ∀ (names : Address.Resolver) (late : Bool) (more : Bytes) (ended : Bool),
          (Handshake.ofHome home).Opens names s.maxFrameSize (bytes ++ more) more ∧
          accept? names late peer s.maxFrameSize ⟨bytes ++ more, ended⟩ =
            some (.ok (new (home.getD peer) s.maxFrameSize, ⟨more, ended⟩))) ∧
    (s.maxFrameSize < Handshake.size home → opened remote home s.maxFrameSize = .error (.io
      ⟨.invalidData, (Frame.Oversize.mk (Handshake.size home) s.maxFrameSize).message⟩)) ∧
    ((∀ a ∈ home, a.isV6 = false) → Handshake.size home ≤ s.maxFrameSize) ∧
    ((∀ other, Handshake.size other ≤ s.maxFrameSize) ↔ 84 ≤ s.maxFrameSize) := by
  refine ⟨fun hroom => ?_, opened_of_no_room remote, fun hv4 => ?_, forall_size_le_iff⟩
  · refine ⟨_, opened_of_room remote hroom, fun names late more ended => ?_⟩
    have hopens := Handshake.opens_wire hroom names more
    exact ⟨hopens, accept?_of_opens (i := ⟨_, ended⟩) hopens late peer⟩
  · obtain ⟨-, hleast, -⟩ := s.violations_eq_nil_iff.1 hs
    have hsize := Handshake.size_le_47 hv4
    omega

/-- Under the least maximum, a listener on the loopback interface. -/
theorem handshake_arrives_loopback :
    let settings : TransportSettings := { maxFrameSize := 64 }
    let loopback : Address := .v6 ⟨[0, 0, 0, 0, 0, 0, 0, 1], rfl⟩ 7000 0
    let peer : Address := .v4 ⟨127, 0, 0, 1⟩ 7001
    settings.violations = [] ∧ ∃ bytes,
      opened peer (some loopback) 64 = .ok (new peer 64, bytes) ∧
        ∀ names late, accept? names late peer 64 ⟨bytes ++ [0, 0, 0, 1, 5], false⟩ =
          some (.ok (new loopback 64, ⟨[0, 0, 0, 1, 5], false⟩)) := by
  intro settings loopback peer
  have hs : settings.violations = [] := by decide
  have hroom : Handshake.size (some loopback) ≤ 64 := by decide +kernel
  obtain ⟨harrives, -⟩ := handshake_arrives hs (some loopback) peer peer
  obtain ⟨bytes, hopened, hread⟩ := harrives hroom
  exact ⟨hs, bytes, hopened, fun names late => (hread names late _ false).2⟩

/-- With the least maximum that the rules allow, a listener may have an address with which it opens
no connection. -/
theorem no_room_for_longest :
    ({ maxFrameSize := 64 } : TransportSettings).violations = [] ∧
      ∀ remote, opened remote (some (longest 0)) 64 =
        .error (.io ⟨.invalidData, "Frame size 73 exceeds maximum 64"⟩) := by
  have hsize : Handshake.size (some (longest 0)) = 73 := by decide +kernel
  refine ⟨by decide, fun remote => ?_⟩
  rw [opened_of_no_room remote (by rw [hsize]; decide), hsize]
  rfl

end Link

end Collective
