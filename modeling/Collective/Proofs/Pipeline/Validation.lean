import Collective.Proofs.Pipeline.Converter
import Mathlib.Data.Nat.Find

/-!
# Valid sequences

Headers are those of a whole sequence if they count up from zero and the last one alone is marked.
What is wrong with other headers shows at the first position that offends, and can be told without
an assembler. Main statements: validation succeeds exactly for whole sequences, and fails with what
is wrong at the first position that offends; a chunk that is refused leaves no trace.
-/

namespace Collective

namespace ChunkHeader

variable {headers : List ChunkHeader} {header : ChunkHeader} {e : OutOfOrder} {p : Nat}

/-- Headers that count up from zero, of which the last one alone is marked. -/
structure IsWhole (headers : List ChunkHeader) : Prop where
  ne_nil : headers ≠ []
  index_eq : ∀ i (h : i < headers.length), headers[i].index.toNat = i
  isLast_iff : ∀ i (h : i < headers.length), headers[i].isLast = true ↔ i + 1 = headers.length

/-- What is wrong at a position: a header comes behind one that is marked, or does not have the
number of its position, or the headers end and none has been marked. -/
def offence? (headers : List ChunkHeader) (p : Nat) : Option OutOfOrder :=
  match headers[p]? with
  | some header =>
    if (headers.take p).any (·.isLast) then some ⟨none, some header.index⟩
    else if header.index.toNat ≠ p then some ⟨some (UInt64.ofNat p), some header.index⟩
    else none
  | none =>
    if p = headers.length ∧ ¬ headers.any (·.isLast) then some ⟨some (UInt64.ofNat p), none⟩
    else none

/-- The first position at which something is wrong. -/
structure FirstOffence (headers : List ChunkHeader) (p : Nat) (e : OutOfOrder) : Prop where
  offence_eq : offence? headers p = some e
  none_before : ∀ q < p, offence? headers q = none

theorem offence?_eq_none_iff (h : p < headers.length) : offence? headers p = none ↔
    (headers.take p).any (·.isLast) = false ∧ headers[p].index.toNat = p := by
  rw [offence?, List.getElem?_eq_getElem h]
  by_cases hmarked : (headers.take p).any (·.isLast) = true
  · simp [hmarked]
  · by_cases hindex : headers[p].index.toNat = p <;> simp [hmarked, hindex]

theorem offence?_length_eq_none_iff :
    offence? headers headers.length = none ↔ headers.any (·.isLast) = true := by
  rw [offence?, List.getElem?_eq_none (Nat.le_refl _)]
  by_cases hmarked : headers.any (·.isLast) = true <;> simp [hmarked]

theorem offence?_of_length_lt (h : headers.length < p) : offence? headers p = none := by
  rw [offence?, List.getElem?_eq_none (Nat.le_of_lt h)]
  exact if_neg fun hend => Nat.ne_of_gt h hend.1

/-- The positions of a whole sequence, and the one behind it, are all in order. -/
theorem isWhole_iff : IsWhole headers ↔ ∀ p, offence? headers p = none := by
  constructor
  · intro h p
    have hlen := List.length_pos_iff.2 h.ne_nil
    rcases Nat.lt_trichotomy p headers.length with hlt | rfl | hgt
    · refine (offence?_eq_none_iff hlt).2 ⟨?_, h.index_eq p hlt⟩
      rw [List.any_eq_false]
      intro header hmem hmarked
      obtain ⟨q, hq, rfl⟩ := List.mem_take_iff_getElem.1 hmem
      have hend := (h.isLast_iff q (by omega)).1 hmarked
      omega
    · rw [offence?_length_eq_none_iff, List.any_eq_true]
      have hlast : headers.length - 1 < headers.length := by omega
      exact ⟨_, List.getElem_mem hlast, (h.isLast_iff _ hlast).2 (by omega)⟩
    · exact offence?_of_length_lt hgt
  · intro h
    have hmarked := offence?_length_eq_none_iff.1 (h headers.length)
    have hend : ∀ i (hi : i < headers.length), headers[i].isLast = true →
        i + 1 = headers.length := by
      intro i hi hlast
      by_contra hinner
      have hnext : i + 1 < headers.length := by omega
      have hfree := ((offence?_eq_none_iff hnext).1 (h (i + 1))).1
      rw [List.any_eq_false] at hfree
      exact hfree _ (List.mem_take_iff_getElem.2 ⟨i, by omega, rfl⟩) hlast
    obtain ⟨header, hmem, hlast⟩ := List.any_eq_true.1 hmarked
    obtain ⟨j, hj, rfl⟩ := List.getElem_of_mem hmem
    refine ⟨List.ne_nil_of_mem hmem, fun i hi => ((offence?_eq_none_iff hi).1 (h i)).2, ?_⟩
    intro i hi
    refine ⟨hend i hi, ?_⟩
    intro hi'
    obtain rfl : i = j := by
      have := hend j hj hlast
      omega
    exact hlast

/-- Headers are in order, or there is a first position at which they are not. -/
theorem isWhole_or_firstOffence (headers : List ChunkHeader) :
    IsWhole headers ∨ ∃ p e, FirstOffence headers p e := by
  by_cases h : ∃ p, offence? headers p ≠ none
  · obtain ⟨e, he⟩ := Option.ne_none_iff_exists'.1 (Nat.find_spec h)
    exact .inr ⟨_, e, he, fun q hq => not_not.1 (Nat.find_min h hq)⟩
  · exact .inl (isWhole_iff.2 fun p => not_not.1 fun hp => h ⟨p, hp⟩)

end ChunkHeader

namespace Assembler

open ChunkHeader

variable {headers : List ChunkHeader} {e : OutOfOrder} {p : Nat}

/-! ## Refusals -/

theorem run_enter (a : Assembler) (header : ChunkHeader) :
    (enter header).run a =
      match a.accept header with
      | .ok b => (.ok header.isLast, b)
      | .error e => (.error e, a) := by
  rw [accept]
  show (ite (a.complete = true) _ _ : StateM Assembler (Except OutOfOrder Bool)).run a = _
  split
  · rfl
  · show (ite (header.index ≠ a.next) _ _ : StateM Assembler (Except OutOfOrder Bool)).run a = _
    split <;> rfl

/-- An assembler that refuses a chunk stays as it is. -/
theorem eq_of_run_enter_eq_error {a b : Assembler} {header : ChunkHeader}
    (h : (enter header).run a = (.error e, b)) : b = a := by
  rw [run_enter] at h
  split at h
  · cases h
  · exact (congrArg Prod.snd h).symm

/-- Refused chunks leave no trace: behind any history an assembler is as the accepted ones among
its chunks have left it. -/
theorem exists_accepted (a : Assembler) (history : List ChunkHeader) :
    ∃ accepted, accepted.Sublist history ∧
      a.acceptAll accepted = .ok ((history.mapM enter).run a).2 := by
  induction history generalizing a with
  | nil => exact ⟨[], .slnil, rfl⟩
  | cons header rest ih =>
    rw [run_mapM_cons, run_enter]
    cases haccept : a.accept header with
    | error e =>
      obtain ⟨accepted, hsub, hall⟩ := ih a
      exact ⟨accepted, hsub.cons _, hall⟩
    | ok b =>
      obtain ⟨accepted, hsub, hall⟩ := ih b
      refine ⟨header :: accepted, hsub.cons_cons _, ?_⟩
      show acceptAll _ ([header] ++ accepted) = _
      rw [acceptAll_append, acceptAll_singleton, haccept]
      exact hall

/-! ## Validation -/

/-- An assembler that has come to a position without an offence answers the header there with what
is wrong with it. -/
theorem accept_getElem (hlen : headers.length < UInt64.size) (hp : p < headers.length) :
    accept ⟨UInt64.ofNat p, (headers.take p).any (·.isLast)⟩ headers[p] =
      match offence? headers p with
      | some e => .error e
      | none => .ok ⟨UInt64.ofNat (p + 1), headers[p].isLast⟩ := by
  have hindex : headers[p].index = UInt64.ofNat p ↔ headers[p].index.toNat = p := by
    rw [← UInt64.toNat_inj, UInt64.toNat_ofNat_of_lt' (Nat.lt_trans hp hlen)]
  rw [accept, offence?, List.getElem?_eq_getElem hp]
  by_cases hmarked : (headers.take p).any (·.isLast) = true
  · simp [hmarked]
  · by_cases hat : headers[p].index.toNat = p <;> simp [hmarked, hindex, hat]

theorem any_take_succ (hp : p < headers.length)
    (hfree : (headers.take p).any (·.isLast) = false) :
    (headers.take (p + 1)).any (·.isLast) = headers[p].isLast := by
  rw [List.take_succ_eq_append_getElem hp, List.any_append, hfree, Bool.false_or, List.any_cons,
    List.any_nil, Bool.or_false]

/-- Up to a position where something is wrong, an assembler accepts everything. -/
theorem acceptAll_take_of_none (hlen : headers.length < UInt64.size) (hp : p ≤ headers.length)
    (h : ∀ q < p, offence? headers q = none) :
    start.acceptAll (headers.take p) =
      .ok ⟨UInt64.ofNat p, (headers.take p).any (·.isLast)⟩ := by
  induction p with
  | zero => rfl
  | succ p ih =>
    have hbefore := ih (Nat.le_of_succ_le hp) fun q hq => h q (Nat.lt_succ_of_lt hq)
    have hnone := h p (Nat.lt_succ_self p)
    have hfree := ((offence?_eq_none_iff hp).1 hnone).1
    have haccept := accept_getElem hlen hp
    rw [hnone] at haccept
    rw [any_take_succ hp hfree, List.take_succ_eq_append_getElem hp, acceptAll_append, hbefore]
    show acceptAll _ [headers[p]] = _
    rw [acceptAll_singleton, haccept]

theorem validate_of_isWhole (hlen : headers.length < UInt64.size) (h : IsWhole headers) :
    validate headers = .ok () := by
  have hnone := isWhole_iff.1 h
  have hall := acceptAll_take_of_none hlen (Nat.le_refl _) fun q _ => hnone q
  rw [List.take_length, offence?_length_eq_none_iff.1 (hnone _)] at hall
  rw [validate, hall]
  rfl

theorem validate_of_firstOffence (hlen : headers.length < UInt64.size)
    (h : FirstOffence headers p e) : validate headers = .error e := by
  rcases Nat.lt_trichotomy p headers.length with hlt | rfl | hgt
  · have hbefore := acceptAll_take_of_none hlen (Nat.le_of_lt hlt) h.none_before
    have haccept := accept_getElem hlen hlt
    rw [h.offence_eq] at haccept
    have hsplit : headers = headers.take p ++ headers[p] :: headers.drop (p + 1) := by
      rw [List.getElem_cons_drop, List.take_append_drop]
    have hall : start.acceptAll headers = .error e := by
      rw [hsplit, acceptAll_append, hbefore]
      show acceptAll _ ([headers[p]] ++ _) = _
      rw [acceptAll_append, acceptAll_singleton, haccept]
      rfl
    rw [validate, hall]
    rfl
  · have hall := acceptAll_take_of_none hlen (Nat.le_refl _) h.none_before
    have hoffence := h.offence_eq
    rw [offence?, List.getElem?_eq_none (Nat.le_refl _)] at hoffence
    dsimp only at hoffence
    split at hoffence
    · next hopen =>
      obtain rfl := Option.some.inj hoffence
      rw [List.take_length, Bool.eq_false_iff.2 hopen.2] at hall
      rw [validate, hall]
      rfl
    · cases hoffence
  · cases h.offence_eq.symm.trans (offence?_of_length_lt hgt)

/-- Exactly the whole sequences are valid. -/
theorem validate_eq_ok_iff (hlen : headers.length < UInt64.size) :
    validate headers = .ok () ↔ IsWhole headers := by
  refine ⟨fun hvalid => ?_, validate_of_isWhole hlen⟩
  rcases isWhole_or_firstOffence headers with h | ⟨p, e, h⟩
  · exact h
  · cases hvalid.symm.trans (validate_of_firstOffence hlen h)

/-- What a sequence is refused for is what is wrong at the first position that offends. -/
theorem validate_eq_error_iff (hlen : headers.length < UInt64.size) :
    validate headers = .error e ↔ ∃ p, FirstOffence headers p e := by
  refine ⟨fun hvalid => ?_, fun ⟨p, h⟩ => validate_of_firstOffence hlen h⟩
  rcases isWhole_or_firstOffence headers with h | ⟨p, f, h⟩
  · cases hvalid.symm.trans (validate_of_isWhole hlen h)
  · obtain rfl := Except.error.inj (hvalid.symm.trans (validate_of_firstOffence hlen h))
    exact ⟨p, h⟩

end Assembler

end Collective
