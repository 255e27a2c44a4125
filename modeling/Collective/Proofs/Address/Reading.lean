import Collective.Proofs.Address.Host
import Collective.Proofs.Json.Text

/-!
# Addresses read from their texts

The text of an address is read as the address. It is made of a few characters, none of which is
blank, and its length is bounded by what it shows: a host, perhaps a scope, and a port.
-/

namespace Collective

/-! ## The parts of a text -/

namespace Address

/-- The scope as it stands behind a host. -/
def scopeText (scope : UInt32) : List Char :=
  if scope = 0 then [] else '%' :: Nat.toDigits 10 scope.toNat

theorem toList_render_v4 (ip : Ipv4) (port : UInt16) : (render (.v4 ip port)).toList =
    ip.render.toList ++ ':' :: Nat.toDigits 10 port.toNat := by
  simp [render]
  rfl

theorem toList_render_v6 (ip : Ipv6) (port : UInt16) (scope : UInt32) :
    (render (.v6 ip port scope)).toList =
      '[' :: (ip.render.toList ++
        (scopeText scope ++ ']' :: ':' :: Nat.toDigits 10 port.toNat)) := by
  rw [render, scopeText]
  split <;> simp <;> rfl

/-! ## Reading -/

theorem closes_scopeText (scope : UInt32) (rest : List Char) :
    Closes (scopeText scope ++ ']' :: rest) := by
  rw [scopeText]
  split
  · exact ⟨by rintro _ ⟨⟩; decide, by simp⟩
  · exact ⟨by rintro _ ⟨⟩; decide, by simp⟩

theorem scope?_scopeText (scope : UInt32) (rest : List Char) :
    scope? (scopeText scope ++ ']' :: rest) = some (scope.toNat, ']' :: rest) := by
  rw [scopeText]
  split
  · next hzero => rw [hzero]; rfl
  · exact read?_scope scope (ends_cons rfl)

theorem standard?_render (a : Address) : standard? a.render.toList = some a := by
  have hport (port : UInt16) := read?_port port ends_nil
  simp only [List.append_nil] at hport
  cases a with
  | v4 ip port =>
    rw [toList_render_v4, standard?, ipv4?_render ip (ends_cons rfl)]
    simp [skip?, hport]
  | v6 ip port scope =>
    have hdotted (rest : List Char) : ipv4? ('[' :: rest) = none :=
      Apart.ipv4?_eq_none (by rintro _ ⟨⟩; decide)
    rw [toList_render_v6, standard?, hdotted]
    simp [skip?, ipv6?_render ip (closes_scopeText scope _), scope?_scopeText, hport]

/-! ## Characters -/

/-- The characters with which addresses are written. -/
def alphabet : List Char := "0123456789abcdef.:[]%".toList

theorem toDigits_subset {base : Nat} (hlow : 1 < base) (hhigh : base ≤ 16) (n : Nat) :
    Nat.toDigits base n ⊆ alphabet := by
  obtain ⟨ds, hds, htext⟩ := exists_toDigits hlow n
  rw [htext]
  intro c hc
  obtain ⟨d, hd, rfl⟩ := List.mem_map.1 hc
  have hall : ∀ d : Fin 16, Nat.digitChar d.val ∈ alphabet := by decide
  exact hall ⟨d, (hds.lt d hd).trans_le hhigh⟩

theorem decimal_subset (n : Nat) : Nat.toDigits 10 n ⊆ alphabet :=
  toDigits_subset (by decide) (by decide) n

theorem hexadecimal_subset (n : Nat) : Nat.toDigits 16 n ⊆ alphabet :=
  toDigits_subset (by decide) (by decide) n

theorem render_ipv4_subset (ip : Ipv4) : ip.render.toList ⊆ alphabet := by
  have hpoint : '.' ∈ alphabet := by decide
  simp [toList_render_ipv4, decimal_subset, hpoint]

theorem behindColons_subset (gs : List UInt16) : behindColons gs ⊆ alphabet := by
  intro c hc
  obtain ⟨g, -, hc⟩ := List.mem_flatMap.1 hc
  rcases List.mem_cons.1 hc with rfl | hc
  · decide
  · exact hexadecimal_subset _ hc

theorem renderGroups_subset (gs : List UInt16) : (Ipv6.renderGroups gs).toList ⊆ alphabet := by
  cases gs with
  | nil => exact List.nil_subset _
  | cons g gs =>
    rw [toList_renderGroups_cons]
    exact List.append_subset.2 ⟨hexadecimal_subset _, behindColons_subset gs⟩

theorem render_ipv6_subset (ip : Ipv6) : ip.render.toList ⊆ alphabet := by
  have hmark : "::ffff:".toList ⊆ alphabet := by decide
  have hcolons : "::".toList ⊆ alphabet := by decide
  have hwritten := isWritten_render ip
  generalize ip.render = text at hwritten ⊢
  cases hwritten with
  | mapped _ =>
    rw [String.toList_append]
    exact List.append_subset.2 ⟨hmark, render_ipv4_subset _⟩
  | compressed _ _ =>
    rw [String.toList_append, String.toList_append]
    exact List.append_subset.2
      ⟨List.append_subset.2 ⟨renderGroups_subset _, hcolons⟩, renderGroups_subset _⟩
  | full => exact renderGroups_subset _

theorem scopeText_subset (scope : UInt32) : scopeText scope ⊆ alphabet := by
  rw [scopeText]
  split
  · exact List.nil_subset _
  · exact List.cons_subset.2 ⟨by decide, decimal_subset _⟩

theorem render_subset (a : Address) : a.render.toList ⊆ alphabet := by
  have hcolon : ':' ∈ alphabet := by decide
  have hopen : '[' ∈ alphabet := by decide
  have hclose : ']' ∈ alphabet := by decide
  cases a with
  | v4 ip port =>
    simp [toList_render_v4, render_ipv4_subset, decimal_subset, hcolon]
  | v6 ip port scope =>
    simp [toList_render_v6, render_ipv6_subset, scopeText_subset, decimal_subset, hcolon, hopen,
      hclose]

/-! ## Texts of addresses -/

theorem withoutScheme_of_not_mem {cs : List Char} (h : 't' ∉ cs) : withoutScheme cs = cs := by
  rw [withoutScheme]
  refine if_neg fun hscheme => h ?_
  exact (List.isPrefixOf_iff_prefix.1 hscheme).subset (by decide)

theorem alphabet_no_blank {c : Char} (h : c ∈ alphabet) : Text.isBlank c = false := by
  have hall : alphabet.all fun c => !Text.isBlank c := by decide
  simpa using List.all_eq_true.1 hall c h

/-- The text that is left when blanks and the scheme are gone decides about the address, whatever
names stand for. -/
theorem resolve_of_withoutScheme {text : String} {a : Address}
    (h : withoutScheme (Text.trim text.toList) = a.render.toList) (names : Resolver) :
    resolve names text = .ok a := by
  rw [resolve, h, standard?_render]

/-- The text of an address is read as the address. -/
theorem resolve_render (names : Resolver) (a : Address) : resolve names a.render = .ok a := by
  have hscheme : 't' ∉ alphabet := by decide
  have hsubset := a.render_subset
  refine resolve_of_withoutScheme ?_ names
  rw [Text.trim_of_no_blank fun c hc => alphabet_no_blank (hsubset hc),
    withoutScheme_of_not_mem fun hc => hscheme (hsubset hc)]

theorem fromJson?_toJson (names : Resolver) (a : Address) : fromJson? names a.toJson = some a := by
  rw [fromJson?, toJson, Json.string?_ofString, Option.bind_some, resolve_render]
  rfl

/-- The characters of addresses are written in JSON as they are. -/
theorem printPieces_of_subset {cs : List Char} (h : cs ⊆ alphabet) :
    ((cs.flatMap String.utf8EncodeChar).map Json.Piece.ofByte).flatMap Json.Token.printPiece =
      cs.flatMap String.utf8EncodeChar := by
  have hall : alphabet.all fun c => ((String.utf8EncodeChar c).map Json.Piece.ofByte).flatMap
      Json.Token.printPiece == String.utf8EncodeChar c := by decide
  induction cs with
  | nil => rfl
  | cons c cs ih =>
    obtain ⟨hc, hcs⟩ := List.cons_subset.1 h
    rw [List.flatMap_cons, List.map_append, List.flatMap_append, ih hcs,
      beq_iff_eq.1 (List.all_eq_true.1 hall c hc)]

/-- The JSON form of an address is its text between quotes. -/
theorem print_toJson (a : Address) : a.toJson.print = Utf8.encode ("\"" ++ a.render ++ "\"") := by
  have hquote : String.utf8EncodeChar '"' = [34] := by decide
  simp [toJson, Json.ofString, Json.print, Json.tokens, Json.Token.print, Json.Piece.ofText,
    Utf8.encode, printPieces_of_subset a.render_subset, hquote]

/-! ## Lengths -/

theorem length_scopeText_le (scope : UInt32) :
    (scopeText scope).length ≤ if scope = 0 then 0 else 11 := by
  rw [scopeText]
  split
  · exact Nat.le_refl 0
  · exact Nat.succ_le_succ (length_scope_le scope)

theorem length_render_ipv4_le (ip : Ipv4) : ip.render.length ≤ 15 := by
  have ha := length_octet_le ip.a
  have hb := length_octet_le ip.b
  have hc := length_octet_le ip.c
  have hd := length_octet_le ip.d
  rw [← String.length_toList, toList_render_ipv4]
  simp only [List.length_append, List.length_cons]
  omega

theorem length_behindColons_le (gs : List UInt16) : (behindColons gs).length ≤ 5 * gs.length := by
  induction gs with
  | nil => exact Nat.le_refl 0
  | cons g gs ih =>
    have hg := length_group_le g
    rw [behindColons, List.flatMap_cons, ← behindColons, List.length_append, List.length_cons,
      List.length_cons]
    omega

/-- Each group but the first has a colon in front of it. -/
theorem length_renderGroups_le (gs : List UInt16) :
    (Ipv6.renderGroups gs).length ≤ 5 * gs.length - 1 := by
  cases gs with
  | nil => exact Nat.le_refl 0
  | cons g gs =>
    have hg := length_group_le g
    have hgs := length_behindColons_le gs
    rw [← String.length_toList, toList_renderGroups_cons, List.length_append, List.length_cons]
    omega

theorem length_render_ipv6_le (ip : Ipv6) : ip.render.length ≤ 39 := by
  have hwritten := isWritten_render ip
  generalize ip.render = text at hwritten ⊢
  cases hwritten with
  | mapped _ =>
    rw [String.length_append]
    exact (Nat.add_le_add_left (length_render_ipv4_le _) _).trans (by decide)
  | @compressed before after length hgroups hlength =>
    have hsum := congrArg List.length hgroups
    simp only [ip.length_groups, List.length_append, List.length_replicate] at hsum
    have hbefore := length_renderGroups_le before
    have hafter := length_renderGroups_le after
    have hcolons : "::".length = 2 := rfl
    rw [String.length_append, String.length_append, hcolons]
    omega
  | full => exact (length_renderGroups_le ip.groups).trans (by rw [ip.length_groups])

/-- The length that no text of an address of the same kind exceeds. -/
def widest : Address → Nat
  | .v4 _ _ => 21
  | .v6 _ _ scope => if scope = 0 then 47 else 58

theorem widest_le (a : Address) : a.widest ≤ 58 := by
  cases a with
  | v4 _ _ => simp [widest]
  | v6 _ _ scope =>
    rw [widest]
    split <;> decide

theorem length_render_le (a : Address) : a.render.length ≤ a.widest := by
  cases a with
  | v4 ip port =>
    have hip := length_render_ipv4_le ip
    have hport := length_port_le port
    rw [widest, ← String.length_toList, toList_render_v4]
    simp only [List.length_append, List.length_cons, String.length_toList]
    omega
  | v6 ip port scope =>
    have hip := length_render_ipv6_le ip
    have hport := length_port_le port
    have hscope := length_scopeText_le scope
    rw [widest, ← String.length_toList, toList_render_v6]
    simp only [List.length_append, List.length_cons, String.length_toList]
    split_ifs at hscope ⊢ <;> omega

end Address

end Collective
