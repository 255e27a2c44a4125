import Collective.Proofs.Address.Number
import Mathlib.Data.List.TakeWhile

/-!
# Hosts in addresses

A host is read where it stands written, up to a character that cannot belong to it. The groups of an
IPv6 address are read as far as they go: up to the place where a run of zeros is left out, and then
behind it. No group is taken for the start of a dotted address, since no point follows it.
-/

namespace Collective.Address

variable {cs rest : List Char}

/-! ## Dotted addresses -/

theorem toList_render_ipv4 (ip : Ipv4) : ip.render.toList =
    Nat.toDigits 10 ip.a.toNat ++ '.' :: (Nat.toDigits 10 ip.b.toNat ++ '.' ::
      (Nat.toDigits 10 ip.c.toNat ++ '.' :: Nat.toDigits 10 ip.d.toNat)) := by
  simp [Ipv4.render]
  rfl

theorem ipv4?_render (ip : Ipv4) (hrest : Ends 10 rest) :
    ipv4? (ip.render.toList ++ rest) = some (ip, rest) := by
  have hpoint (more : List Char) : Ends 10 ('.' :: more) := ends_cons rfl
  simp [toList_render_ipv4, ipv4?, read?_octet, hpoint, hrest, skip?]

/-- What a number leaves is what its digits leave. -/
theorem NumberForm.eq_of_read? {form : NumberForm} {n : Nat}
    (h : form.read? cs = some (n, rest)) : rest = (spanDigits form.base cs).2 := by
  rw [read?] at h
  dsimp only at h
  split_ifs at h
  exact (Prod.mk.inj (Option.some.inj h)).2.symm

theorem skip?_eq_none {c : Char} (h : cs.head? ≠ some c) : skip? c cs = none := by
  cases cs with
  | nil => rfl
  | cons d rest => exact if_neg fun hc => h (congrArg some hc.symm)

/-- There is no dotted address without a point. -/
theorem ipv4?_eq_none (hcs : '.' ∉ cs) (hrest : Ends 10 rest) (hpoint : rest.head? ≠ some '.') :
    ipv4? (cs ++ rest) = none := by
  rw [ipv4?]
  cases hread : octetForm.read? (cs ++ rest) with
  | none => rfl
  | some read =>
    -- where the first number stops, no point follows
    obtain ⟨a, left⟩ := read
    obtain ⟨within, hsuffix, hleft⟩ := exists_spanDigits_append hrest cs
    have hskip : skip? '.' left = none := by
      rw [NumberForm.eq_of_read? hread]
      show skip? '.' (spanDigits 10 (cs ++ rest)).2 = none
      rw [hleft]
      apply skip?_eq_none
      intro hhead
      cases within with
      | nil => exact hpoint hhead
      | cons c more =>
        obtain rfl := Option.some.inj hhead
        exact hcs (hsuffix.subset List.mem_cons_self)
    simp [hskip]

/-! ## Groups -/

/-- The text goes on neither with a digit nor with a point. -/
def Apart (rest : List Char) : Prop := ∀ c ∈ rest.head?, digit? 16 c = none ∧ c ≠ '.'

theorem Apart.ends (h : Apart rest) : Ends 16 rest := fun c hc => (h c hc).1

theorem Apart.head?_ne (h : Apart rest) : rest.head? ≠ some '.' := fun hc => (h '.' hc).2 rfl

theorem apart_colon (rest : List Char) : Apart (':' :: rest) := by
  rintro _ ⟨⟩
  decide

theorem point_not_mem_toDigits (n : Nat) : '.' ∉ Nat.toDigits 16 n := by
  obtain ⟨ds, hds, htext⟩ := exists_toDigits (by decide : 1 < 16) n
  rw [htext]
  intro hmem
  obtain ⟨d, hd, hpoint⟩ := List.mem_map.1 hmem
  have hdigit := digit?_digitChar (by decide) (hds.lt d hd)
  rw [hpoint] at hdigit
  cases hdigit

/-- Groups that stand behind others. -/
def behindColons (gs : List UInt16) : List Char :=
  gs.flatMap fun g => ':' :: Nat.toDigits 16 g.toNat

theorem toList_renderGroups_cons (g : UInt16) (gs : List UInt16) :
    (Ipv6.renderGroups (g :: gs)).toList = Nat.toDigits 16 g.toNat ++ behindColons gs := by
  induction gs generalizing g with
  | nil => simp [Ipv6.renderGroups, Ipv6.renderGroup, behindColons]
  | cons next gs ih =>
    have hcons : Ipv6.renderGroups (g :: next :: gs) =
        Ipv6.renderGroup g ++ ":" ++ Ipv6.renderGroups (next :: gs) := by
      simp [Ipv6.renderGroups, String.append_assoc]
    rw [hcons, String.toList_append, String.toList_append, ih]
    simp [Ipv6.renderGroup, behindColons]

/-- Groups as they stand at the start or behind others. -/
def groupsText (first : Bool) (gs : List UInt16) : List Char :=
  if first then (Ipv6.renderGroups gs).toList else behindColons gs

@[simp] theorem groupsText_nil (first : Bool) : groupsText first [] = [] := by
  cases first <;> rfl

theorem separated?_groupsText (first : Bool) (g : UInt16) (gs : List UInt16)
    (rest : List Char) : separated? first (groupsText first (g :: gs) ++ rest) =
      some (Nat.toDigits 16 g.toNat ++ (groupsText false gs ++ rest)) := by
  cases first with
  | true => simp [separated?, groupsText, toList_renderGroups_cons]
  | false => simp [separated?, groupsText, behindColons, skip?]

/-- Behind a group something follows that is apart from it. -/
theorem Apart.groupsText (h : Apart rest) (gs : List UInt16) :
    Apart (groupsText false gs ++ rest) := by
  cases gs with
  | nil => exact h
  | cons g gs => exact apart_colon _

/-- There is no other group. -/
def Stops (rest : List Char) : Prop := ∀ first,
  (separated? first rest).bind ipv4? = none ∧ (separated? first rest).bind groupForm.read? = none

theorem Apart.ipv4?_eq_none (h : Apart rest) : ipv4? rest = none :=
  @Address.ipv4?_eq_none [] rest nofun (h.ends.mono (by decide)) h.head?_ne

theorem Apart.stops (h : Apart rest) (hcolon : rest.head? ≠ some ':') : Stops rest := by
  intro first
  cases first with
  | true => exact ⟨h.ipv4?_eq_none, NumberForm.read?_of_ends h.ends⟩
  | false => simp [separated?, skip?_eq_none hcolon]

theorem stops_colons (rest : List Char) : Stops (':' :: ':' :: rest) := by
  have hnone (more : List Char) :
      ipv4? (':' :: more) = none ∧ groupForm.read? (':' :: more) = none :=
    ⟨(apart_colon more).ipv4?_eq_none, NumberForm.read?_of_ends (apart_colon more).ends⟩
  intro first
  cases first with
  | true => exact hnone _
  | false => exact hnone _

/-- Each group that may come is read, and then those behind it. -/
theorem groups_succ {limit : Nat} {first : Bool} {g : UInt16}
    (hseparated : separated? first cs = some (Nat.toDigits 16 g.toNat ++ rest))
    (h : Apart rest) : groups (limit + 1) first cs =
      (g :: (groups limit false rest).1, (groups limit false rest).2) := by
  have hdotted := ipv4?_eq_none (point_not_mem_toDigits g.toNat) (h.ends.mono (by decide))
    h.head?_ne
  simp [groups, hseparated, hdotted, read?_group g h.ends]

/-- A dotted address is read as two groups if there is room for them. -/
theorem groups_dotted {limit : Nat} {first : Bool} {ip : Ipv4}
    (hseparated : separated? first cs = some (ip.render.toList ++ rest)) (h : Ends 10 rest) :
    groups (limit + 2) first cs = (groupsOfIpv4 ip, true, rest) := by
  simp [groups, hseparated, ipv4?_render ip h]

/-- Groups are read up to the limit, or up to the place where there is no other. -/
theorem groups_groupsText {limit : Nat} {gs : List UInt16} (hlimit : gs.length ≤ limit)
    (hapart : Apart rest) (hstops : gs.length = limit ∨ Stops rest) (first : Bool) :
    groups limit first (groupsText first gs ++ rest) = (gs, false, rest) := by
  -- behind the first group, and with a lower limit, all groups have a colon in front of them
  induction gs generalizing limit first with
  | nil =>
    rw [groupsText_nil, List.nil_append]
    cases limit with
    | zero => rfl
    | succ limit =>
      obtain ⟨hdotted, hgroup⟩ := (hstops.resolve_left nofun) first
      simp [groups, hdotted, hgroup]
  | cons g gs ih =>
    cases limit with
    | zero => cases hlimit
    | succ limit =>
      have hothers := ih (Nat.le_of_succ_le_succ hlimit) (hstops.imp_left Nat.succ.inj) false
      rw [groups_succ (separated?_groupsText first g gs rest) (hapart.groupsText gs), hothers]

/-! ## The texts of IPv6 addresses -/

/-- The longest run is where it is said to be. -/
theorem exists_of_longestZeros {start position length : Nat} {gs : List UInt16}
    (h : Ipv6.longestZeros start gs = (position, length)) (hlength : 0 < length) :
    ∃ before after, gs = before ++ (List.replicate length 0 ++ after) ∧
      position = start + before.length := by
  induction gs generalizing start with
  | nil =>
    cases h
    cases hlength
  | cons g gs ih =>
    rw [Ipv6.longestZeros] at h
    split at h
    · obtain ⟨rfl, rfl⟩ := Prod.mk.inj h
      refine ⟨[], (g :: gs).dropWhile (· = 0), ?_, (Nat.add_zero _).symm⟩
      have hzeros : (g :: gs).takeWhile (· = 0) = List.replicate (Ipv6.zeros (g :: gs)) 0 :=
        List.eq_replicate_iff.2 ⟨rfl, fun x hx => by simpa using List.mem_takeWhile_imp hx⟩
      rw [List.nil_append, ← hzeros, List.takeWhile_append_dropWhile]
    · obtain ⟨before, after, hgs, rfl⟩ := ih h
      exact ⟨g :: before, after, by simp [hgs], by simp; omega⟩

/-- The texts that an address may have: with its last part dotted, with a run of zeros left out, or
with all groups. -/
inductive IsWritten (ip : Ipv6) : String → Prop where
  | mapped {g i : UInt16} : ip.groups = [0, 0, 0, 0, 0, 0xFFFF, g, i] →
      IsWritten ip ("::ffff:" ++ Ipv4.render ⟨(Ipv6.splitGroup g).1, (Ipv6.splitGroup g).2,
        (Ipv6.splitGroup i).1, (Ipv6.splitGroup i).2⟩)
  | compressed {before after : List UInt16} {length : Nat} :
      ip.groups = before ++ (List.replicate length 0 ++ after) → 1 < length →
      IsWritten ip (Ipv6.renderGroups before ++ "::" ++ Ipv6.renderGroups after)
  | full : IsWritten ip (Ipv6.renderGroups ip.groups)

theorem isWritten_render (ip : Ipv6) : IsWritten ip ip.render := by
  rw [Ipv6.render]
  unfold Ipv6.renderList
  split
  · next g i hgroups => exact .mapped hgroups
  · split
    next start length hlongest =>
    split
    · next hlength =>
      obtain ⟨before, after, hgroups, hstart⟩ := exists_of_longestZeros hlongest (by omega)
      rw [Nat.zero_add] at hstart
      have htake : ip.groups.take start = before := by rw [hgroups, hstart, List.take_left]
      have hdrop : ip.groups.drop (start + length) = after := by
        rw [hgroups, hstart, List.drop_append]
        simp
      rw [htake, hdrop]
      exact .compressed hgroups hlength
    · exact .full

/-! ## Reading IPv6 addresses -/

theorem joinGroup_splitGroup (g : UInt16) :
    Ipv6.joinGroup (Ipv6.splitGroup g).1 (Ipv6.splitGroup g).2 = g := by
  have hlt := g.toNat_lt
  have hjoin : (Ipv6.joinGroup (Ipv6.splitGroup g).1 (Ipv6.splitGroup g).2).toNat =
      (g.toNat / 256 % 256) <<< 8 % 65536 ||| g.toNat % 256 := by
    simp [Ipv6.joinGroup, Ipv6.splitGroup, Nat.shiftRight_eq_div_pow]
  have hhigh : (g.toNat / 256 % 256) <<< 8 % 65536 = (g.toNat / 256) <<< 8 := by
    rw [Nat.shiftLeft_eq, Nat.shiftLeft_eq]
    omega
  have hlow : g.toNat % 256 < 2 ^ 8 := Nat.mod_lt _ (by decide)
  rw [← UInt16.toNat_inj, hjoin, hhigh, ← Nat.shiftLeft_add_eq_or_of_lt hlow, Nat.shiftLeft_eq]
  omega

/-- What follows a host: no digit, no point and no colon. -/
structure Closes (rest : List Char) : Prop where
  apart : Apart rest
  head?_ne : rest.head? ≠ some ':'

theorem Closes.stops (h : Closes rest) : Stops rest := h.apart.stops h.head?_ne

theorem ofGroups?_groups (ip : Ipv6) : ofGroups? ip.groups = some ip := dif_pos ip.length_groups

/-- Eight groups are read one after another. -/
theorem ipv6?_renderGroups (ip : Ipv6) (h : Closes rest) :
    ipv6? ((Ipv6.renderGroups ip.groups).toList ++ rest) = some (ip, rest) := by
  have hread : groups 8 true (groupsText true ip.groups ++ rest) = (ip.groups, false, rest) :=
    groups_groupsText ip.length_groups.le h.apart (.inl ip.length_groups) true
  rw [groupsText, if_pos rfl] at hread
  simp [ipv6?, hread, ip.length_groups, ofGroups?_groups]

/-- Behind two colons the groups are read that end the address. -/
theorem ipv6?_of_groups {ip : Ipv6} {before after : List UInt16} {behind : List Char}
    {hasDotted : Bool} (hbefore : groups 8 true cs = (before, false, ':' :: ':' :: behind))
    (hshort : before.length ≠ 8)
    (hafter : groups (7 - before.length) true behind = (after, hasDotted, rest))
    (hgroups : ip.groups =
      before ++ (List.replicate (8 - before.length - after.length) 0 ++ after)) :
    ipv6? cs = some (ip, rest) := by
  have hwhole := ofGroups?_groups ip
  rw [hgroups] at hwhole
  simp [ipv6?, hbefore, hshort, skip?, hafter, hwhole]

/-- The groups in front of a run of zeros and those behind it are read where the run is left
out. -/
theorem ipv6?_compressed {ip : Ipv6} {before after : List UInt16} {length : Nat}
    (hgroups : ip.groups = before ++ (List.replicate length 0 ++ after)) (hlength : 1 < length)
    (h : Closes rest) :
    ipv6? ((Ipv6.renderGroups before).toList ++
      (':' :: ':' :: ((Ipv6.renderGroups after).toList ++ rest))) = some (ip, rest) := by
  have hsum : before.length + (length + after.length) = 8 := by
    simpa [hgroups] using ip.length_groups
  have hzeros : 8 - before.length - after.length = length := by omega
  exact ipv6?_of_groups
    (groups_groupsText (by omega) (apart_colon _) (.inr (stops_colons _)) true) (by omega)
    (groups_groupsText (by omega) h.apart (.inr h.stops) true) (by rw [hzeros, hgroups])

/-- The last two groups of a mapped address are read from its dotted part. -/
theorem ipv6?_mapped {ip : Ipv6} {g i : UInt16}
    (hgroups : ip.groups = [0, 0, 0, 0, 0, 0xFFFF, g, i]) (h : Closes rest) :
    ipv6? ("::ffff:".toList ++ ((Ipv4.render ⟨(Ipv6.splitGroup g).1, (Ipv6.splitGroup g).2,
      (Ipv6.splitGroup i).1, (Ipv6.splitGroup i).2⟩).toList ++ rest)) = some (ip, rest) := by
  generalize hdotted : (Ipv4.mk _ _ _ _) = dotted
  have hfirst : separated? true ("ffff:".toList ++ (dotted.render.toList ++ rest)) =
      some (Nat.toDigits 16 (0xFFFF : UInt16).toNat ++ ':' :: (dotted.render.toList ++ rest)) := by
    have hmark : Nat.toDigits 16 (0xFFFF : UInt16).toNat = "ffff".toList := by
      simp [Nat.toDigits_eq_if, Nat.digitChar]
    rw [hmark]
    simp [separated?]
  have hnext : separated? false (':' :: (dotted.render.toList ++ rest)) =
      some (dotted.render.toList ++ rest) := rfl
  have hafter : groups 7 true ("ffff:".toList ++ (dotted.render.toList ++ rest)) =
      ([0xFFFF, g, i], true, rest) := by
    rw [groups_succ hfirst (apart_colon _), groups_dotted hnext (h.apart.ends.mono (by decide)),
      groupsOfIpv4, ← hdotted, joinGroup_splitGroup, joinGroup_splitGroup]
  have hbefore : groups 8 true (groupsText true [] ++
        ':' :: ':' :: ("ffff:".toList ++ (dotted.render.toList ++ rest))) = ([], false, _) :=
    groups_groupsText (by decide) (apart_colon _) (.inr (stops_colons _)) true
  exact ipv6?_of_groups hbefore (by decide) hafter hgroups

/-- An address is read where it stands written. -/
theorem ipv6?_render (ip : Ipv6) (h : Closes rest) :
    ipv6? (ip.render.toList ++ rest) = some (ip, rest) := by
  have hwritten := isWritten_render ip
  generalize ip.render = text at hwritten ⊢
  cases hwritten with
  | mapped hgroups => simpa [List.append_assoc] using ipv6?_mapped hgroups h
  | compressed hgroups hlength =>
    simpa [List.append_assoc] using ipv6?_compressed hgroups hlength h
  | full => exact ipv6?_renderGroups ip h

end Collective.Address
