/-!
# Byte strings

A byte string is the list of its bytes. Words are written with the most significant byte first,
and `toNat` reads back what `ofNat` wrote as long as the number fits the width.
-/

namespace Collective

-- A power of numbers is the core library's, also where another monoid is in scope.
attribute [instance (10001), default_instance 10001] instPowNat

/-- A byte string. -/
abbrev Bytes := List UInt8

namespace Bytes

/-- The low `width` bytes of a number, the most significant byte first. -/
def ofNat : (width : Nat) → Nat → Bytes
  | 0, _ => []
  | width + 1, n => UInt8.ofNat (n / 256 ^ width) :: ofNat width n

/-- The number whose bytes these are, the most significant byte first. -/
def toNat (bytes : Bytes) : Nat :=
  bytes.foldl (fun n b => n * 256 + b.toNat) 0

@[simp] theorem length_ofNat (width n : Nat) : (ofNat width n).length = width := by
  induction width with
  | zero => rfl
  | succ width ih => simp [ofNat, ih]

theorem foldl_toNat (bytes : Bytes) (start : Nat) :
    bytes.foldl (fun n b => n * 256 + b.toNat) start =
      start * 256 ^ bytes.length + toNat bytes := by
  induction bytes generalizing start with
  | nil => simp [toNat]
  | cons b rest ih =>
    rw [toNat, List.foldl_cons, List.foldl_cons, ih, ih (0 * 256 + b.toNat), List.length_cons,
      Nat.pow_succ]
    grind

theorem toNat_cons (b : UInt8) (rest : Bytes) :
    toNat (b :: rest) = b.toNat * 256 ^ rest.length + toNat rest := by
  rw [toNat, List.foldl_cons, foldl_toNat]
  simp

/-- Reading a word back gives the part of the number that fits its width. -/
theorem toNat_ofNat (width n : Nat) : toNat (ofNat width n) = n % 256 ^ width := by
  induction width with
  | zero => simp [ofNat, toNat, Nat.mod_one]
  | succ width ih =>
    have low : n % 256 ^ (width + 1) = n % 256 ^ width + 256 ^ width * (n / 256 ^ width % 256) := by
      rw [Nat.pow_succ, Nat.mod_mul]
    rw [ofNat, toNat_cons, ih, length_ofNat, UInt8.toNat_ofNat', low, Nat.mul_comm (256 ^ width),
      Nat.add_comm]

theorem toNat_lt (bytes : Bytes) : toNat bytes < 256 ^ bytes.length := by
  induction bytes with
  | nil => simp [toNat]
  | cons b rest ih =>
    have hb := b.toNat_lt
    have := Nat.mul_le_mul_right (256 ^ rest.length) (by omega : b.toNat + 1 ≤ 256)
    rw [toNat_cons, List.length_cons, Nat.pow_succ, Nat.mul_comm _ 256]
    rw [Nat.add_mul, Nat.one_mul] at this
    omega

/-- Only the low bytes of a number count. -/
theorem ofNat_mod (width n : Nat) : ofNat width (n % 256 ^ width) = ofNat width n := by
  induction width generalizing n with
  | zero => rfl
  | succ width ih =>
    rw [ofNat, ofNat, ← ih (n % 256 ^ (width + 1)), ← ih n]
    congr 1
    · apply UInt8.toNat_inj.1
      have hpos : 0 < 256 ^ width := Nat.pow_pos (by omega)
      have high : n % 256 ^ (width + 1) / 256 ^ width = n / 256 ^ width % 256 := by
        rw [Nat.pow_succ, Nat.mod_mul, Nat.add_mul_div_left _ _ hpos,
          Nat.div_eq_of_lt (Nat.mod_lt n hpos), Nat.zero_add]
      simp [high]
    · rw [Nat.pow_succ, Nat.mod_mul_right_mod]

/-- Bytes are determined by their number and their count. -/
theorem ofNat_toNat (bytes : Bytes) : ofNat bytes.length (toNat bytes) = bytes := by
  induction bytes with
  | nil => rfl
  | cons b rest ih =>
    have hpos : 0 < 256 ^ rest.length := Nat.pow_pos (by omega)
    rw [List.length_cons, ofNat, toNat_cons]
    congr 1
    · rw [Nat.mul_comm, Nat.mul_add_div hpos, Nat.div_eq_of_lt (toNat_lt rest), Nat.add_zero]
      simp
    · rw [← ofNat_mod, Nat.mul_comm, Nat.mul_add_mod, ofNat_mod, ih]

end Bytes

end Collective
