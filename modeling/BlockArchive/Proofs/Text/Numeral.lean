import BlockArchive.Text.Blank
import BlockArchive.Text.Numeral
import Mathlib.Data.List.TakeWhile
import Mathlib.Tactic.Ring

/-!
# Numerals are read back

A number that is written with a set number of digits, or with all of them, is read back from the
start of a text, provided the reader stops where the digits do.

## Main statements

- `Numeral.value_fixed`, `Numeral.value_atLeast`: the number that the digits stand for
- `Numeral.read?_append`: digits are read up to where they end
- `Numeral.read?_fixed`, `Numeral.read?_atLeast`: a number is read back
-/

namespace BlockArchive

namespace Text

/-- A digit is not blank. -/
theorem isBlank_of_isDigit {c : Char} (h : c.isDigit = true) : isBlank c = false := by
  rw [Char.isDigit_iff_toNat] at h
  have hzero : '0'.toNat = 48 := rfl
  have hnine : '9'.toNat = 57 := rfl
  simp only [isBlank, blankRanges, List.any_cons, List.any_nil, Bool.or_false, Bool.or_eq_false_iff,
    Bool.and_eq_false_iff, decide_eq_false_iff_not]
  omega

/-- Nothing is skipped of a text that does not start with a blank. -/
theorem skipBlanks_cons {c : Char} (h : isBlank c = false) (rest : List Char) :
    skipBlanks (c :: rest) = c :: rest := by
  rw [skipBlanks, List.dropWhile_cons_of_neg (by simp [h])]

end Text

namespace Numeral

theorem isDigit_digitChar : ∀ d, d < 10 → (digitChar d).isDigit = true := by
  decide

theorem digitValue_digitChar : ∀ d, d < 10 → digitValue (digitChar d) = d := by
  decide

theorem isDigit_of_mem_fixed {width n : Nat} {c : Char} (h : c ∈ fixed width n) :
    c.isDigit = true := by
  induction width generalizing n with
  | zero => cases h
  | succ width ih =>
    rw [fixed, List.mem_append, List.mem_singleton] at h
    rcases h with h | rfl
    · exact ih h
    · exact isDigit_digitChar _ (Nat.mod_lt n (by decide))

theorem value_concat (digits : List Char) (c : Char) :
    value (digits ++ [c]) = 10 * value digits + digitValue c := by
  rw [value, List.foldl_append, ← value]
  rfl

/-- Each zero at the end makes the number ten times as large. -/
theorem value_append_zeros (digits : List Char) (count : Nat) :
    value (digits ++ List.replicate count '0') = value digits * 10 ^ count := by
  induction count with
  | zero => rw [List.replicate_zero, List.append_nil, Nat.pow_zero, Nat.mul_one]
  | succ count ih =>
    have hzero : digitValue '0' = 0 := rfl
    rw [List.replicate_succ', ← List.append_assoc, value_concat, ih, hzero, Nat.pow_succ]
    ring

/-- The lowest digits stand for the remainder. -/
theorem value_fixed (width n : Nat) : value (fixed width n) = n % 10 ^ width := by
  induction width generalizing n with
  | zero => rw [Nat.pow_zero, Nat.mod_one]; rfl
  | succ width ih =>
    rw [fixed, value_concat, ih, digitValue_digitChar _ (Nat.mod_lt n (by decide)), Nat.pow_succ',
      Nat.mod_mul]
    omega

theorem one_le_digitCount (n : Nat) : 1 ≤ digitCount n := by
  rw [digitCount]
  split
  · exact Nat.le_refl 1
  · exact Nat.le_add_left 1 _

theorem lt_pow_digitCount (n : Nat) : n < 10 ^ digitCount n := by
  induction n using digitCount.induct with
  | case1 n h => rwa [digitCount, if_pos h]
  | case2 n h ih =>
    rw [digitCount, if_neg h, Nat.pow_succ]
    omega

/-- All digits stand for the number. -/
theorem value_atLeast (width n : Nat) : value (atLeast width n) = n := by
  rw [atLeast, value_fixed]
  apply Nat.mod_eq_of_lt
  exact (lt_pow_digitCount n).trans_le (Nat.pow_le_pow_right (by decide) (Nat.le_max_right _ _))

/-! ## Reading -/

/-- Digits are read up to where they end or where no more are asked for. -/
theorem read?_append {most : Nat} {digits rest : List Char}
    (hdigits : ∀ c ∈ digits, c.isDigit = true) (hne : digits ≠ []) (hmost : digits.length ≤ most)
    (hend : digits.length = most ∨ ∀ c ∈ rest.head?, c.isDigit = false) :
    read? most (digits ++ rest) = some (value digits, rest) := by
  have hrest : (rest.take (most - digits.length)).takeWhile Char.isDigit = [] := by
    rcases hend with hend | hend
    · rw [hend, Nat.sub_self, List.take_zero, List.takeWhile_nil]
    · cases rest with
      | nil => rw [List.take_nil, List.takeWhile_nil]
      | cons c rest =>
        have hc : c.isDigit = false := hend c rfl
        cases most - digits.length with
        | zero => rfl
        | succ count => rw [List.take_succ_cons, List.takeWhile_cons_of_neg (by simp [hc])]
  have hread : ((digits ++ rest).take most).takeWhile Char.isDigit = digits := by
    rw [List.take_append, List.take_of_length_le hmost, List.takeWhile_append_of_pos hdigits, hrest,
      List.append_nil]
  have hne : digits.isEmpty = false := by simpa using hne
  simp only [read?, hread, hne, List.drop_left, Bool.false_eq_true, if_false]

variable {width n : Nat}

/-- A number is read back that is written with as many digits as are asked for. -/
theorem read?_fixed (hwidth : width ≠ 0) (h : n < 10 ^ width) (rest : List Char) :
    read? width (fixed width n ++ rest) = some (n, rest) := by
  have hne : fixed width n ≠ [] := by
    rw [← List.length_pos_iff, length_fixed]
    omega
  rw [read?_append (fun _ => isDigit_of_mem_fixed) hne (length_fixed width n).le
    (Or.inl (length_fixed width n)), value_fixed, Nat.mod_eq_of_lt h]

/-- A number is read back that is written with all digits, if no digit follows. -/
theorem read?_atLeast {most : Nat} {rest : List Char} (hmost : (atLeast width n).length ≤ most)
    (hend : ∀ c ∈ rest.head?, c.isDigit = false) :
    read? most (atLeast width n ++ rest) = some (n, rest) := by
  have hne : atLeast width n ≠ [] := by
    rw [← List.length_pos_iff, atLeast, length_fixed]
    exact Nat.lt_of_lt_of_le (one_le_digitCount n) (Nat.le_max_right _ _)
  have hdigits : ∀ c ∈ atLeast width n, c.isDigit = true := fun _ => isDigit_of_mem_fixed
  rw [read?_append hdigits hne hmost (Or.inr hend), value_atLeast]

end Numeral

end BlockArchive
