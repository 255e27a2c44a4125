/-!
# Blank characters

The characters of the Unicode property `White_Space`, and texts without the blanks at their ends.
-/

namespace Collective.Text

/-- The character has the property `White_Space`. -/
def isBlank (c : Char) : Bool :=
  let n := c.toNat
  (9 ≤ n && n ≤ 13) || n == 0x20 || n == 0x85 || n == 0xA0 || n == 0x1680
    || (0x2000 ≤ n && n ≤ 0x200A) || n == 0x2028 || n == 0x2029 || n == 0x202F || n == 0x205F
    || n == 0x3000

/-- A text without the blanks at its start. -/
def trimStart (cs : List Char) : List Char := cs.dropWhile isBlank

/-- A text without the blanks at its end. -/
def trimEnd (cs : List Char) : List Char := (cs.reverse.dropWhile isBlank).reverse

/-- A text without the blanks at its ends. -/
def trim (cs : List Char) : List Char := trimEnd (trimStart cs)

/-- Nothing is left out in front of a character that is not blank. -/
theorem trimStart_cons {c : Char} (h : isBlank c = false) (cs : List Char) :
    trimStart (c :: cs) = c :: cs := by
  rw [trimStart, List.dropWhile_cons, h, if_neg Bool.false_ne_true]

/-- Blanks at the start are left out. -/
theorem trimStart_append {left : List Char} (h : ∀ c ∈ left, isBlank c = true) (cs : List Char) :
    trimStart (left ++ cs) = trimStart cs := by
  rw [trimStart, List.dropWhile_append_of_pos h, trimStart]

/-- Blanks at the end are left out. -/
theorem trimEnd_append {cs right : List Char} (hright : ∀ c ∈ right, isBlank c = true)
    (h : ∀ c ∈ cs, isBlank c = false) : trimEnd (cs ++ right) = cs := by
  have hback : ∀ c ∈ right.reverse, isBlank c = true := fun c hc => hright c (List.mem_reverse.1 hc)
  have hkeep : trimStart cs.reverse = cs.reverse := by
    cases hcs : cs.reverse with
    | nil => rfl
    | cons c rest => exact trimStart_cons (h c (List.mem_reverse.1 (hcs ▸ List.mem_cons_self))) rest
  rw [trimEnd, List.reverse_append, ← trimStart, trimStart_append hback, hkeep,
    List.reverse_reverse]

/-- A text without blanks is what is left of it between blanks. -/
theorem trim_append {left cs right : List Char} (hleft : ∀ c ∈ left, isBlank c = true)
    (hright : ∀ c ∈ right, isBlank c = true) (h : ∀ c ∈ cs, isBlank c = false) :
    trim (left ++ (cs ++ right)) = cs := by
  rw [trim, trimStart_append hleft]
  cases cs with
  | nil =>
    have hall := trimStart_append hright []
    rw [List.append_nil] at hall
    rw [List.nil_append, hall]
    rfl
  | cons c cs =>
    rw [List.cons_append, trimStart_cons (h c List.mem_cons_self), ← List.cons_append,
      trimEnd_append hright h]

theorem trim_of_no_blank {cs : List Char} (h : ∀ c ∈ cs, isBlank c = false) : trim cs = cs := by
  have hnone : ∀ c ∈ ([] : List Char), isBlank c = true := nofun
  simpa using trim_append hnone hnone h

end Collective.Text
