import Collective.Address.Text
import Mathlib.Tactic.IntervalCases

/-!
# Numbers in addresses

The digits of a number are read up to the first character that is none, and denote the number. So a
form that admits a number reads it where it stands written.
-/

namespace Collective.Address

/-! ## Digits -/

section

variable {base : Nat}

theorem digit?_digitChar (hbase : base ≤ 16) {d : Nat} (hd : d < base) :
    digit? base (Nat.digitChar d) = some d := by
  have hlt : d < 16 := by omega
  interval_cases d <;> simp [digit?, Nat.digitChar, hd]

/-- The text goes on with no digit. -/
def Ends (base : Nat) (rest : List Char) : Prop := ∀ c ∈ rest.head?, digit? base c = none

theorem ends_nil : Ends base [] := nofun

theorem ends_cons {c : Char} {rest : List Char} (h : digit? base c = none) :
    Ends base (c :: rest) := fun _ hc => Option.some.inj hc ▸ h

/-- What is no digit is none in a smaller base. -/
theorem Ends.mono {smaller : Nat} {rest : List Char} (h : Ends base rest)
    (hle : smaller ≤ base) : Ends smaller rest := by
  intro c hc
  have hnone := h c hc
  simp only [digit?, ite_eq_right_iff, reduceCtorEq, imp_false] at hnone ⊢
  split_ifs at hnone ⊢ <;> omega

theorem spanDigits_of_ends {rest : List Char} (h : Ends base rest) :
    spanDigits base rest = ([], rest) := by
  cases rest with
  | nil => rfl
  | cons c rest => rw [spanDigits, h c rfl]

/-- Digits are read up to the end. -/
theorem spanDigits_append (hbase : base ≤ 16) {ds : List Nat} (hds : ∀ d ∈ ds, d < base)
    {rest : List Char} (hrest : Ends base rest) :
    spanDigits base (ds.map Nat.digitChar ++ rest) = (ds, rest) := by
  induction ds with
  | nil => exact spanDigits_of_ends hrest
  | cons d ds ih =>
    obtain ⟨hd, hds⟩ := List.forall_mem_cons.1 hds
    rw [List.map_cons, List.cons_append, spanDigits, digit?_digitChar hbase hd, ih hds]

/-- Reading digits stops within a text, or at its end if what follows goes on with no digit. -/
theorem exists_spanDigits_append {rest : List Char} (hrest : Ends base rest) (cs : List Char) :
    ∃ left, left <:+ cs ∧ (spanDigits base (cs ++ rest)).2 = left ++ rest := by
  induction cs with
  | nil => exact ⟨[], List.suffix_rfl, by rw [List.nil_append, spanDigits_of_ends hrest]⟩
  | cons c cs ih =>
    rw [List.cons_append, spanDigits]
    split
    · obtain ⟨left, hsuffix, hleft⟩ := ih
      exact ⟨left, hsuffix.trans (List.suffix_cons c cs), hleft⟩
    · exact ⟨c :: cs, List.suffix_rfl, rfl⟩

/-! ## Numbers -/

/-- The digits denote the number, which has no zero in front of others. -/
structure Denotes (base : Nat) (ds : List Nat) (n : Nat) : Prop where
  lt : ∀ d ∈ ds, d < base
  ne_nil : ds ≠ []
  value : ds.foldl (fun n d => n * base + d) 0 = n
  leading : ds.head? = some 0 → ds = [0]

/-- A digit is put behind others. -/
theorem Denotes.append {ds : List Nat} {n d : Nat} (h : Denotes base ds n) (hn : 0 < n)
    (hd : d < base) : Denotes base (ds ++ [d]) (n * base + d) where
  lt := by
    intro e he
    rcases List.mem_append.1 he with he | he
    · exact h.lt e he
    · exact List.mem_singleton.1 he ▸ hd
  ne_nil := List.append_ne_nil_of_left_ne_nil h.ne_nil _
  value := by rw [List.foldl_append, h.value]; rfl
  leading := by
    intro hhead
    obtain ⟨first, others, hfirst⟩ := List.exists_cons_of_ne_nil h.ne_nil
    rw [hfirst, List.cons_append, List.head?_cons] at hhead
    -- the digits in front would write zero
    have hzero := h.leading (by rw [hfirst, List.head?_cons, hhead])
    have hvalue := h.value
    rw [hzero, List.foldl_cons, List.foldl_nil, Nat.zero_mul] at hvalue
    omega

/-- The text of a number shows the digits that denote it. -/
theorem exists_toDigits (hbase : 1 < base) (n : Nat) :
    ∃ ds, Denotes base ds n ∧ Nat.toDigits base n = ds.map Nat.digitChar := by
  induction n using Nat.strongRecOn with
  | ind n ih =>
    by_cases hn : n < base
    · exact ⟨[n], ⟨by simpa using hn, by simp, by simp, by simp⟩,
        by rw [Nat.toDigits_of_lt_base hn]; rfl⟩
    · have hpos : 0 < n / base := Nat.div_pos (by omega) (by omega)
      obtain ⟨ds, hds, htext⟩ := ih (n / base) (Nat.div_lt_self (by omega) hbase)
      have hlast := hds.append hpos (Nat.mod_lt n (by omega))
      rw [Nat.div_add_mod' n base] at hlast
      exact ⟨_, hlast, by
        rw [Nat.toDigits_of_base_le hbase (by omega), htext, List.map_append]; rfl⟩

end

/-- A number below the bound is read where it stands written. -/
theorem NumberForm.read?_toDigits {form : NumberForm} (hlow : 1 < form.base)
    (hhigh : form.base ≤ 16) {n : Nat} (hn : n < form.bound)
    (hlength : ∀ most ∈ form.maxDigits, (Nat.toDigits form.base n).length ≤ most)
    {rest : List Char} (hrest : Ends form.base rest) :
    form.read? (Nat.toDigits form.base n ++ rest) = some (n, rest) := by
  obtain ⟨ds, hds, htext⟩ := exists_toDigits hlow n
  rw [htext, List.length_map] at hlength
  rw [htext, read?, spanDigits_append hhigh hds.lt hrest]
  have hshort : ¬ form.maxDigits.any (· < ds.length) = true := by
    simpa [Option.any_eq_true] using hlength
  have hplain : ¬ (!form.leadingZeros ∧ ds.head? = some 0 ∧ 1 < ds.length) := by
    rintro ⟨-, hhead, hlong⟩
    rw [hds.leading hhead] at hlong
    exact absurd hlong (by decide)
  dsimp only
  rw [hds.value, if_neg (by simp [hds.ne_nil, hshort, hn]), if_neg hplain]

/-- No number stands where there is no digit. -/
theorem NumberForm.read?_of_ends {form : NumberForm} {rest : List Char}
    (h : Ends form.base rest) : form.read? rest = none := by
  rw [read?, spanDigits_of_ends h]
  simp

/-! ## The numbers of an address -/

theorem length_octet_le (b : UInt8) : (Nat.toDigits 10 b.toNat).length ≤ 3 :=
  (Nat.length_toDigits_le_iff (by decide) (by decide)).2 (b.toNat_lt.trans (by decide))

theorem length_group_le (g : UInt16) : (Nat.toDigits 16 g.toNat).length ≤ 4 :=
  (Nat.length_toDigits_le_iff (by decide) (by decide)).2 g.toNat_lt

theorem length_port_le (port : UInt16) : (Nat.toDigits 10 port.toNat).length ≤ 5 :=
  (Nat.length_toDigits_le_iff (by decide) (by decide)).2 (port.toNat_lt.trans (by decide))

theorem length_scope_le (scope : UInt32) : (Nat.toDigits 10 scope.toNat).length ≤ 10 :=
  (Nat.length_toDigits_le_iff (by decide) (by decide)).2 (scope.toNat_lt.trans (by decide))

variable {rest : List Char}

theorem read?_octet (b : UInt8) (hrest : Ends 10 rest) :
    octetForm.read? (Nat.toDigits 10 b.toNat ++ rest) = some (b.toNat, rest) :=
  NumberForm.read?_toDigits (by decide) (by decide) b.toNat_lt
    (fun _ hmost => Option.some.inj hmost ▸ length_octet_le b) hrest

theorem read?_group (g : UInt16) (hrest : Ends 16 rest) :
    groupForm.read? (Nat.toDigits 16 g.toNat ++ rest) = some (g.toNat, rest) :=
  NumberForm.read?_toDigits (by decide) (by decide) g.toNat_lt
    (fun _ hmost => Option.some.inj hmost ▸ length_group_le g) hrest

theorem read?_port (port : UInt16) (hrest : Ends 10 rest) :
    portForm.read? (Nat.toDigits 10 port.toNat ++ rest) = some (port.toNat, rest) :=
  NumberForm.read?_toDigits (by decide) (by decide) port.toNat_lt (by simp [portForm]) hrest

theorem read?_scope (scope : UInt32) (hrest : Ends 10 rest) :
    scopeForm.read? (Nat.toDigits 10 scope.toNat ++ rest) = some (scope.toNat, rest) :=
  NumberForm.read?_toDigits (by decide) (by decide) scope.toNat_lt (by simp [scopeForm]) hrest

end Collective.Address
