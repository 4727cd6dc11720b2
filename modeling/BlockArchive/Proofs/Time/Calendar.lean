import BlockArchive.Time.Calendar
import Mathlib.Algebra.GroupWithZero.Nat
import Mathlib.Data.List.Basic

/-!
# Days and dates

Counting the days to a date undoes finding the date of a day: every day has a date that the calendar
has, and that many days lie before it.

## Main statements

- `Date.daysBeforeYear_le`, `Date.lt_daysBeforeYear`: a day lies in its year
- `Date.sum_monthLengths`: the months of a year have the days of the year
- `Date.exists_monthOfDay`: a day lies in its month
- `Date.exists_ofDayNumber`, `Date.dayNumber_ofDayNumber`: the date of a day
-/

namespace BlockArchive.Date

/-! ## Years -/

theorem daysBeforeYear_le (day : Int) : daysBeforeYear (yearOfDay day) ≤ day := by
  unfold yearOfDay daysBeforeYear
  simp only
  split
  · omega
  · split <;> omega

theorem lt_daysBeforeYear (day : Int) : day < daysBeforeYear (yearOfDay day + 1) := by
  unfold yearOfDay daysBeforeYear
  simp only
  split
  · omega
  · split <;> omega

theorem sum_monthLengths (year : Int) :
    ((monthLengths year).sum : Int) = daysBeforeYear (year + 1) - daysBeforeYear year := by
  have hleap : isLeapYear year = true ↔ year % 4 = 0 ∧ (year % 100 ≠ 0 ∨ year % 400 = 0) := by
    simp [isLeapYear]
  unfold daysBeforeYear monthLengths
  by_cases h : isLeapYear year = true
  · rw [if_pos h]
    rw [hleap] at h
    simp only [List.sum_cons, List.sum_nil]
    omega
  · rw [if_neg h]
    rw [hleap] at h
    simp only [List.sum_cons, List.sum_nil]
    omega

/-! ## Months -/

/-- A day lies in one of the months, and is counted from the first day of it. -/
theorem exists_monthOfDay (month : Nat) {rest : Nat} {lengths : List Nat}
    (h : rest < lengths.sum) :
    ∃ before day, monthOfDay month lengths rest = (month + before, day) ∧
      (lengths.take before).sum + (day - 1) = rest ∧ 1 ≤ day ∧
        day ≤ lengths[before]?.getD 0 := by
  induction lengths generalizing month rest with
  | nil => cases h
  | cons length later ih =>
    rw [monthOfDay]
    split
    · next hlt => exact ⟨0, rest + 1, rfl, by simp, Nat.le_add_left 1 rest, hlt⟩
    · next hge =>
      rw [List.sum_cons] at h
      obtain ⟨before, day, hfound, hsum, hfirst, hlast⟩ :=
        ih (month + 1) (show rest - length < later.sum by omega)
      refine ⟨before + 1, day, ?_, ?_, hfirst, hlast⟩
      · rw [hfound, Nat.add_right_comm, Nat.add_assoc]
      · rw [List.take_succ_cons, List.sum_cons]
        omega

theorem daysBeforeMonth_eq (year : Int) (before : Nat) :
    daysBeforeMonth year (1 + before) = ((monthLengths year).take before).sum := by
  rw [daysBeforeMonth, Nat.add_sub_cancel_left, List.sum_eq_foldl_nat]

/-! ## The date of a day -/

/-- The date of a day is a month and a day of its year. -/
theorem exists_eq_ofDayNumber (number : Int) :
    ∃ before day, ofDayNumber number = ⟨yearOfDay number, 1 + before, day⟩ ∧
      daysBeforeYear (yearOfDay number) +
        ((monthLengths (yearOfDay number)).take before).sum + ((day : Int) - 1) = number ∧
      1 ≤ day ∧ day ≤ (monthLengths (yearOfDay number))[before]?.getD 0 := by
  have hlow := daysBeforeYear_le number
  have hhigh := lt_daysBeforeYear number
  have hsum := sum_monthLengths (yearOfDay number)
  have hyear : (number - daysBeforeYear (yearOfDay number)).toNat <
      (monthLengths (yearOfDay number)).sum := by omega
  obtain ⟨before, day, hfound, hrest, hfirst, hlast⟩ := exists_monthOfDay 1 hyear
  refine ⟨before, day, ?_, by omega, hfirst, hlast⟩
  rw [ofDayNumber]
  simp only [hfound]

/-- The calendar has the date of every day. -/
theorem exists_ofDayNumber (number : Int) : (ofDayNumber number).Exists := by
  obtain ⟨before, day, hdate, _, hfirst, hlast⟩ := exists_eq_ofDayNumber number
  rw [hdate, Exists]
  refine ⟨Nat.le_add_right 1 before, hfirst, ?_⟩
  rwa [Nat.add_sub_cancel_left]

/-- As many days lie before the date of a day as before the day. -/
theorem dayNumber_ofDayNumber (number : Int) : (ofDayNumber number).dayNumber = number := by
  obtain ⟨before, day, hdate, hnumber, _, _⟩ := exists_eq_ofDayNumber number
  rw [hdate, dayNumber, daysBeforeMonth_eq]
  exact hnumber

/-- A month has two digits at most, and so has a day. -/
theorem Exists.lt_hundred {date : Date} (h : date.Exists) : date.month < 100 ∧ date.day < 100 := by
  obtain ⟨_, hfirst, hlast⟩ := h
  have hmonth : date.month - 1 < 12 := by
    by_contra hmonth
    rw [List.getElem?_eq_none (by simpa [monthLengths] using hmonth)] at hlast
    exact absurd hlast (by simpa using Nat.not_le.2 hfirst)
  have hlengths : ∀ length ∈ monthLengths date.year, length ≤ 31 := by
    intro length hlength
    simp only [monthLengths, List.mem_cons, List.not_mem_nil, or_false] at hlength
    split at hlength <;> omega
  have hday : (monthLengths date.year)[date.month - 1]?.getD 0 ≤ 31 := by
    cases hget : (monthLengths date.year)[date.month - 1]? with
    | none => exact Nat.zero_le 31
    | some length => exact hlengths length (List.mem_of_getElem? hget)
  omega

end BlockArchive.Date
