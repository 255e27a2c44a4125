import Collective.Text.Base64
import Mathlib.Data.List.Basic

/-!
# Base64 read and written

Each symbol stands for one number of six bits, and a group of four symbols has as many bits as three
bytes. A shorter last group leaves bits over; since the reader wants them to be zero and the padding
to be there, every byte string has exactly one text.
-/

namespace Collective.Base64

/-! ## Symbols -/

theorem value?_symbol {n : Nat} (h : n < 64) : value? (symbol n) = some n := by
  have hall : ∀ n : Fin 64, value? (symbol n.val) = some n.val := by decide
  exact hall ⟨n, h⟩

/-- The padding is no symbol. -/
theorem symbol_ne_padding {n : Nat} (h : n < 64) : symbol n ≠ '=' := by
  intro heq
  have hvalue := value?_symbol h
  rw [heq] at hvalue
  cases hvalue

/-- A symbol is that of its number. -/
theorem symbol_of_value? {c : Char} {n : Nat} (h : value? c = some n) : n < 64 ∧ symbol n = c := by
  have hall : ∀ code : Fin 128, (value? (Char.ofNat code.val)).all fun n =>
      n < 64 && symbol n == Char.ofNat code.val := by decide
  have hascii : c.toNat < 128 := by
    have hle : ∀ last : Char, c ≤ last → c.toNat ≤ last.toNat := fun _ hc => hc
    rw [value?] at h
    split at h
    · next hrange => exact Nat.lt_of_le_of_lt (hle 'Z' hrange.2) (by decide)
    split at h
    · next hrange => exact Nat.lt_of_le_of_lt (hle 'z' hrange.2) (by decide)
    split at h
    · next hrange => exact Nat.lt_of_le_of_lt (hle '9' hrange.2) (by decide)
    split at h
    · next heq => exact heq ▸ (by decide)
    split at h
    · next heq => exact heq ▸ (by decide)
    · cases h
  have hread := hall ⟨c.toNat, hascii⟩
  simp only [Char.ofNat_toNat] at hread
  rw [h] at hread
  simpa using hread

/-! ## Byte strings -/

/-- A group that is not padded is read by itself. -/
theorem decode?_group {w x y z : Char} (hz : z ≠ '=') (rest : List Char) :
    decode? (w :: x :: y :: z :: rest) =
      (value? w).bind fun w => (value? x).bind fun x => (value? y).bind fun y =>
        (value? z).bind fun z => (decode? rest).map fun bytes =>
          UInt8.ofNat (w * 4 + x / 16) :: UInt8.ofNat (x % 16 * 16 + y / 4)
            :: UInt8.ofNat (y % 4 * 64 + z) :: bytes := by
  rw [decode?]
  · simp only [Option.bind_eq_bind, Option.map_eq_bind]
    rfl
  · rintro - rfl -
    exact hz rfl
  · rintro rfl -
    exact hz rfl

/-- The symbols of a byte string are read as the byte string. -/
theorem decode?_encode (bytes : Bytes) : decode? (encode bytes) = some bytes := by
  fun_induction encode bytes with
  | case1 => rfl
  | case2 a =>
    have ha := a.toNat_lt
    have hw := value?_symbol (n := a.toNat / 4) (by omega)
    have hx := value?_symbol (n := a.toNat % 4 * 16) (by omega)
    simp only [decode?, hw, hx, Option.bind_eq_bind, Option.bind_some]
    rw [if_pos (by omega)]
    simp [← UInt8.toNat_inj]
    omega
  | case3 a b =>
    have ha := a.toNat_lt
    have hb := b.toNat_lt
    have hw := value?_symbol (n := a.toNat / 4) (by omega)
    have hx := value?_symbol (n := a.toNat % 4 * 16 + b.toNat / 16) (by omega)
    have hy := value?_symbol (n := b.toNat % 16 * 4) (by omega)
    have hpadding := symbol_ne_padding (n := b.toNat % 16 * 4) (by omega)
    rw [decode?]
    · simp only [hw, hx, hy, Option.bind_eq_bind, Option.bind_some]
      rw [if_pos (by omega)]
      simp [← UInt8.toNat_inj]
      omega
    · exact hpadding
  | case4 a b c rest ih =>
    have ha := a.toNat_lt
    have hb := b.toNat_lt
    have hc := c.toNat_lt
    have hw := value?_symbol (n := a.toNat / 4) (by omega)
    have hx := value?_symbol (n := a.toNat % 4 * 16 + b.toNat / 16) (by omega)
    have hy := value?_symbol (n := b.toNat % 16 * 4 + c.toNat / 64) (by omega)
    have hz := value?_symbol (n := c.toNat % 64) (by omega)
    rw [decode?_group (symbol_ne_padding (by omega)), hw, hx, hy, hz, ih]
    simp [← UInt8.toNat_inj]
    omega

/-- Symbols that are read are those of what is read. -/
theorem encode_of_decode? {cs : List Char} {bytes : Bytes} (h : decode? cs = some bytes) :
    encode bytes = cs := by
  fun_induction decode? cs generalizing bytes with
  | case1 =>
    obtain rfl := Option.some.inj h
    rfl
  | case2 w x =>
    obtain ⟨i, hw, hrest⟩ := Option.bind_eq_some_iff.1 h
    obtain ⟨j, hx, hread⟩ := Option.bind_eq_some_iff.1 hrest
    obtain ⟨hi, rfl⟩ := symbol_of_value? hw
    obtain ⟨hj, rfl⟩ := symbol_of_value? hx
    split at hread
    · obtain rfl := Option.some.inj hread
      have ha : (UInt8.ofNat (i * 4 + j / 16)).toNat = i * 4 + j / 16 :=
        UInt8.toNat_ofNat_of_lt' (show _ < 256 by omega)
      have hfirst : (i * 4 + j / 16) / 4 = i := by omega
      have hsecond : (i * 4 + j / 16) % 4 * 16 = j := by omega
      rw [encode, ha, hfirst, hsecond]
    · cases hread
  | case3 w x y hne =>
    obtain ⟨i, hw, hrest⟩ := Option.bind_eq_some_iff.1 h
    obtain ⟨j, hx, hrest⟩ := Option.bind_eq_some_iff.1 hrest
    obtain ⟨k, hy, hread⟩ := Option.bind_eq_some_iff.1 hrest
    obtain ⟨hi, rfl⟩ := symbol_of_value? hw
    obtain ⟨hj, rfl⟩ := symbol_of_value? hx
    obtain ⟨hk, rfl⟩ := symbol_of_value? hy
    split at hread
    · obtain rfl := Option.some.inj hread
      have ha : (UInt8.ofNat (i * 4 + j / 16)).toNat = i * 4 + j / 16 :=
        UInt8.toNat_ofNat_of_lt' (show _ < 256 by omega)
      have hb : (UInt8.ofNat (j % 16 * 16 + k / 4)).toNat = j % 16 * 16 + k / 4 :=
        UInt8.toNat_ofNat_of_lt' (show _ < 256 by omega)
      have hfirst : (i * 4 + j / 16) / 4 = i := by omega
      have hsecond : (i * 4 + j / 16) % 4 * 16 + (j % 16 * 16 + k / 4) / 16 = j := by omega
      have hthird : (j % 16 * 16 + k / 4) % 16 * 4 = k := by omega
      rw [encode, ha, hb, hfirst, hsecond, hthird]
    · cases hread
  | case4 w x y z rest _ _ ih =>
    obtain ⟨i, hw, hrest⟩ := Option.bind_eq_some_iff.1 h
    obtain ⟨j, hx, hrest⟩ := Option.bind_eq_some_iff.1 hrest
    obtain ⟨k, hy, hrest⟩ := Option.bind_eq_some_iff.1 hrest
    obtain ⟨l, hz, hrest⟩ := Option.bind_eq_some_iff.1 hrest
    obtain ⟨others, hothers, hread⟩ := Option.bind_eq_some_iff.1 hrest
    obtain ⟨hi, rfl⟩ := symbol_of_value? hw
    obtain ⟨hj, rfl⟩ := symbol_of_value? hx
    obtain ⟨hk, rfl⟩ := symbol_of_value? hy
    obtain ⟨hl, rfl⟩ := symbol_of_value? hz
    obtain rfl := Option.some.inj hread
    have ha : (UInt8.ofNat (i * 4 + j / 16)).toNat = i * 4 + j / 16 :=
      UInt8.toNat_ofNat_of_lt' (show _ < 256 by omega)
    have hb : (UInt8.ofNat (j % 16 * 16 + k / 4)).toNat = j % 16 * 16 + k / 4 :=
      UInt8.toNat_ofNat_of_lt' (show _ < 256 by omega)
    have hc : (UInt8.ofNat (k % 4 * 64 + l)).toNat = k % 4 * 64 + l :=
      UInt8.toNat_ofNat_of_lt' (show _ < 256 by omega)
    have hfirst : (i * 4 + j / 16) / 4 = i := by omega
    have hsecond : (i * 4 + j / 16) % 4 * 16 + (j % 16 * 16 + k / 4) / 16 = j := by omega
    have hthird : (j % 16 * 16 + k / 4) % 16 * 4 + (k % 4 * 64 + l) / 64 = k := by omega
    have hfourth : (k % 4 * 64 + l) % 64 = l := by omega
    rw [encode, ha, hb, hc, hfirst, hsecond, hthird, hfourth, ih hothers]
  | case5 => cases h

/-- The symbols that are read as a byte string are its own. -/
theorem decode?_eq_some_iff {cs : List Char} {bytes : Bytes} :
    decode? cs = some bytes ↔ encode bytes = cs := by
  constructor
  · exact encode_of_decode?
  · rintro rfl
    exact decode?_encode bytes

end Collective.Base64
