import Collective.Proofs.Link.Handshake

/-!
# The identity of addresses

An address and its text stand for each other. So a text names the same address to whoever reads it,
and what a listener writes about itself is the key under which the other side has its link and its
observer.
-/

namespace Collective.Address

/-! ## Texts with more around them -/

theorem withoutScheme_append (cs : List Char) : withoutScheme ("tcp://".toList ++ cs) = cs := by
  rw [withoutScheme, if_pos (List.isPrefixOf_iff_prefix.2 (List.prefix_append _ cs)),
    List.drop_left]

section

variable {left right : String} {names : Resolver}

/-- Blanks around the text of an address do not count. -/
theorem resolve_blank (hleft : ∀ c ∈ left.toList, Text.isBlank c = true)
    (hright : ∀ c ∈ right.toList, Text.isBlank c = true) (a : Address) :
    resolve names (left ++ a.render ++ right) = .ok a := by
  have hscheme : 't' ∉ a.render.toList := fun ht => absurd (a.render_subset ht) (by decide)
  refine resolve_of_withoutScheme ?_ names
  rw [String.toList_append, String.toList_append, List.append_assoc, Text.trim_append hleft hright
    fun c hc => alphabet_no_blank (a.render_subset hc), withoutScheme_of_not_mem hscheme]

/-- Nor does the scheme in front of it. -/
theorem resolve_blank_scheme (hleft : ∀ c ∈ left.toList, Text.isBlank c = true)
    (hright : ∀ c ∈ right.toList, Text.isBlank c = true) (a : Address) :
    resolve names (left ++ "tcp://" ++ a.render ++ right) = .ok a := by
  have hnone : ∀ c ∈ "tcp://".toList ++ a.render.toList, Text.isBlank c = false := by
    have hscheme : ∀ c ∈ "tcp://".toList, Text.isBlank c = false := by simp [Text.isBlank]
    exact List.forall_mem_append.2 ⟨hscheme, fun c hc => alphabet_no_blank (a.render_subset hc)⟩
  refine resolve_of_withoutScheme ?_ names
  rw [String.toList_append, String.toList_append, String.toList_append, List.append_assoc,
    List.append_assoc, ← List.append_assoc "tcp://".toList, Text.trim_append hleft hright hnone,
    withoutScheme_append]

end

/-! ## One text for each address -/

theorem render_inj {a b : Address} : a.render = b.render ↔ a = b := by
  refine ⟨fun h => ?_, congrArg render⟩
  have ha := a.resolve_render .none
  rw [h, resolve_render] at ha
  exact (Except.ok.inj ha).symm

/-- A peer that advertises an address is taken over under this very address. -/
theorem greet?_of_wire {ω α : Type} {x : Activity ω α} {number : Nat} {i : Inbound} {a : Address}
    {more : Bytes} (names : Resolver) (late : Bool) (hi : x.inbounds[number]? = some i) (hstage : i.stage = .greeting)
    (hroom : Handshake.size (some a) ≤ x.manager.maxFrame)
    (hbuffer : i.inlet.buffer = Frame.wire (Handshake.ofHome (some a)).print ++ more) :
    ∃ y, x.greet? number names late = some y ∧ y.inbounds[number]? = some { i with
      inlet := ⟨more, i.inlet.ended⟩
      stage := .adopting a (.look x.manager.connections.length) } := by
  have hopens := Handshake.opens_wire hroom names more
  rw [← hbuffer] at hopens
  have haccept := Link.accept?_of_opens hopens late i.peer
  obtain ⟨hlt, -⟩ := List.getElem?_eq_some_iff.1 hi
  refine ⟨{ x with manager := (x.manager.addLink (.new a x.manager.maxFrame) false).1 }.putInbound
    number _, ?_, List.getElem?_set_self hlt⟩
  rw [Activity.greet?, hi, Option.bind_eq_bind, Option.bind_some, if_pos hstage, haccept]
  rfl

/-- An address and its text stand for each other. The text is read as the address, whatever names
stand for and whatever blanks are around it, and with the scheme in front of it; in JSON the address is its text between quotes,
and this is read as the address again; and no other address has this text. So when one side listens
on an address and opens a connection, what it writes first lets the other side take the connection
over under just this address: the key by which that side finds its own link to it, and the observer
that is bound to it. -/
theorem text_identifies (a : Address) :
    (∀ (names : Resolver) (left right : String), (∀ c ∈ left.toList, Text.isBlank c = true) →
      (∀ c ∈ right.toList, Text.isBlank c = true) →
        resolve names (left ++ a.render ++ right) = .ok a ∧
        resolve names (left ++ "tcp://" ++ a.render ++ right) = .ok a) ∧
    a.toJson.print = Utf8.encode ("\"" ++ a.render ++ "\"") ∧
    (∀ names : Resolver, (Json.parse? a.toJson.print).bind (fromJson? names) = some a) ∧
    (∀ b : Address, b.render = a.render ↔ b = a) ∧
    (∀ (remote : Address) (max : Nat), Handshake.size (some a) ≤ max → ∃ bytes,
      Link.opened remote (some a) max = .ok (.new remote max, bytes) ∧
        ∀ {ω α : Type} {x : Activity ω α} {number : Nat} {i : Inbound} {more : Bytes}
          (names : Resolver) (late : Bool),
          x.inbounds[number]? = some i → i.stage = .greeting →
          Handshake.size (some a) ≤ x.manager.maxFrame → i.inlet.buffer = bytes ++ more →
          ∃ y, x.greet? number names late = some y ∧ y.inbounds[number]? = some { i with
            inlet := ⟨more, i.inlet.ended⟩
            stage := .adopting a (.look x.manager.connections.length) }) := by
  have hjson : a.toJson.ReadsBack := .ofString a.render
  refine ⟨fun names left right hleft hright => ?_, a.print_toJson, fun names => ?_,
    fun b => render_inj,
    fun remote max hroom => ?_⟩
  · exact ⟨resolve_blank hleft hright a, resolve_blank_scheme hleft hright a⟩
  · rw [hjson.parse?_print, Option.bind_some, fromJson?_toJson]
  · exact ⟨_, Link.opened_of_room remote hroom, greet?_of_wire⟩

/-- An address with a scope, between blanks and behind the scheme. -/
theorem text_identifies_scoped :
    let a : Address := .v6 ⟨[0xFE80, 0, 0, 0, 1, 0, 0, 2], rfl⟩ 65535 3
    (∀ names, resolve names (" \t" ++ "tcp://" ++ a.render ++ "\u3000\n") = .ok a) ∧
      (∀ b : Address, b.render = a.render → b = a) ∧
      ∃ bytes, Link.opened (.v4 ⟨127, 0, 0, 1⟩ 80) (some a) 64 =
        .ok (.new (.v4 ⟨127, 0, 0, 1⟩ 80) 64, bytes) := by
  intro a
  have hleft : ∀ c ∈ " \t".toList, Text.isBlank c = true := by simp [Text.isBlank]
  have hright : ∀ c ∈ "\u3000\n".toList, Text.isBlank c = true := by simp [Text.isBlank]
  have hroom : Handshake.size (some a) ≤ 64 := by decide +kernel
  obtain ⟨hparse, -, -, hrender, hopened⟩ := text_identifies a
  obtain ⟨bytes, hbytes, -⟩ := hopened (.v4 ⟨127, 0, 0, 1⟩ 80) 64 hroom
  exact ⟨fun names => (hparse names _ _ hleft hright).2, fun b => (hrender b).1, bytes, hbytes⟩

end Collective.Address
