import BlockArchive.Proofs.Text.Numeral
import BlockArchive.Proofs.Time.Calendar
import BlockArchive.Time.Notation

/-!
# Written times are read back

Each reader takes from the start of a text what has been written for it, and leaves the rest. So the
instant is read back that a text has been written for, whatever its year, its fraction and its leap
mark.

## Main statements

- `TimeText.run_bind`: readers one after the other
- `TimeText.year_writeYear`, `TimeText.date_write`, `TimeText.fraction_writeFraction`: the parts of
  a written time
- `TimeText.instant_write`, `Instant.read?_text`: an instant is read back
-/

namespace BlockArchive

namespace TimeText

variable {α β : Type} {cs rest : List Char}

/-- What a reader leaves is for the next one. -/
theorem run_bind {x : Reader α} {f : α → Reader β} {a : α} (h : x cs = some (a, rest)) :
    (x >>= f) cs = f a rest := by
  show (x cs >>= fun p => f p.1 p.2) = _
  rw [h]
  rfl

/-! ## Numbers and marks -/

theorem skipBlanks_digits {digits : List Char} (hdigits : ∀ c ∈ digits, c.isDigit = true)
    (hne : digits ≠ []) (rest : List Char) : Text.skipBlanks (digits ++ rest) = digits ++ rest := by
  cases digits with
  | nil => exact absurd rfl hne
  | cons c digits =>
    exact Text.skipBlanks_cons (Text.isBlank_of_isDigit (hdigits c List.mem_cons_self)) _

theorem skipBlanks_fixed {width n : Nat} (hwidth : width ≠ 0) (rest : List Char) :
    Text.skipBlanks (Numeral.fixed width n ++ rest) = Numeral.fixed width n ++ rest := by
  refine skipBlanks_digits (fun _ => Numeral.isDigit_of_mem_fixed) ?_ rest
  rw [← List.length_pos_iff, Numeral.length_fixed]
  exact Nat.pos_of_ne_zero hwidth

theorem number_fixed {width n : Nat} (hwidth : width ≠ 0) (h : n < 10 ^ width) (rest : List Char) :
    number width (Numeral.fixed width n ++ rest) = some (n, rest) := by
  rw [number, skipBlanks_fixed hwidth, Numeral.read?_fixed hwidth h]

theorem mark_cons {c : Char} (h : Text.isBlank c = false) (rest : List Char) :
    mark c (c :: rest) = some ((), rest) := by
  simp only [mark, Text.skipBlanks_cons h, if_true]

/-! ## Dates -/

theorem not_isDigit_head {c : Char} (h : c.isDigit = false) (rest : List Char) :
    ∀ d ∈ (c :: rest).head?, d.isDigit = false := by
  rintro d ⟨⟩
  exact h

theorem isDigit_of_fixed_append_eq_cons {width n : Nat} {c : Char} {more : List Char}
    (hwidth : width ≠ 0) (h : Numeral.fixed width n ++ rest = c :: more) : c.isDigit = true := by
  cases hdigits : Numeral.fixed width n with
  | nil =>
    have hlength := Numeral.length_fixed width n
    rw [hdigits] at hlength
    exact absurd hlength.symm hwidth
  | cons d digits =>
    rw [hdigits] at h
    cases h
    exact Numeral.isDigit_of_mem_fixed (hdigits ▸ List.mem_cons_self)

/-- A year is read back up to the mark after it. -/
theorem year_writeYear (y : Int) (rest : List Char) :
    year (writeYear y ++ '-' :: rest) = some (y, '-' :: rest) := by
  rw [writeYear]
  split
  · next hfour =>
    have hread : Numeral.read? 4 (Numeral.fixed 4 y.toNat ++ '-' :: rest) =
        some (y.toNat, '-' :: rest) := Numeral.read?_fixed (by decide) (by omega) _
    have hyear : (y.toNat : Int) = y := Int.toNat_of_nonneg hfour.1
    unfold year
    rw [skipBlanks_fixed (by decide)]
    -- the year starts with a digit, so it is not taken for a sign
    split
    · next h => exact absurd (isDigit_of_fixed_append_eq_cons (by decide) h) (by decide)
    · next h => exact absurd (isDigit_of_fixed_append_eq_cons (by decide) h) (by decide)
    · rw [hread, Option.map_some, hyear]
  · next hsign =>
    have hread : Numeral.read? (Numeral.atLeast 4 y.natAbs ++ '-' :: rest).length
        (Numeral.atLeast 4 y.natAbs ++ '-' :: rest) = some (y.natAbs, '-' :: rest) :=
      Numeral.read?_atLeast (by rw [List.length_append]; exact Nat.le_add_right _ _)
        (not_isDigit_head (by decide) rest)
    unfold year
    rw [List.cons_append]
    by_cases hneg : y < 0
    · rw [if_pos hneg, Text.skipBlanks_cons (by decide)]
      simp only [hread, Option.map_some]
      rw [show -(y.natAbs : Int) = y by omega]
    · rw [if_neg hneg, Text.skipBlanks_cons (by decide)]
      simp only [hread, Option.map_some]
      rw [show (y.natAbs : Int) = y by omega]

/-- A date of the calendar is read back. -/
theorem date_write {d : Date} (h : d.Exists) (rest : List Char) :
    date (writeYear d.year ++ '-' :: (Numeral.fixed 2 d.month ++
      '-' :: (Numeral.fixed 2 d.day ++ rest))) = some (d, rest) := by
  obtain ⟨hmonth, hday⟩ := h.lt_hundred
  rw [date, run_bind (year_writeYear d.year _), run_bind (mark_cons (by decide) _),
    run_bind (number_fixed (by decide) hmonth _), run_bind (mark_cons (by decide) _),
    run_bind (number_fixed (by decide) hday rest)]
  simp only [if_pos h]
  rfl

/-! ## Times of day -/

/-- Decimals are read up to the mark of the offset. -/
theorem fraction_decimals {width n : Nat} (hwidth : width ≠ 0) (hnine : width ≤ 9)
    (h : n < 10 ^ width) :
    fraction ('.' :: Numeral.fixed width n ++ ['Z']) = some (n * 10 ^ (9 - width), ['Z']) := by
  have hdigits : (Numeral.fixed width n ++ ['Z']).takeWhile Char.isDigit =
      Numeral.fixed width n := by
    rw [List.takeWhile_append_of_pos (fun _ => Numeral.isDigit_of_mem_fixed),
      List.takeWhile_cons_of_neg (by decide), List.append_nil]
  have hne : (Numeral.fixed width n).isEmpty = false := by
    rw [← Bool.not_eq_true, List.isEmpty_iff_length_eq_zero, Numeral.length_fixed]
    exact hwidth
  have hpadded : (Numeral.fixed width n ++ List.replicate 9 '0').take 9 =
      Numeral.fixed width n ++ List.replicate (9 - width) '0' := by
    rw [List.take_append, Numeral.length_fixed, List.take_replicate,
      List.take_of_length_le (by rw [Numeral.length_fixed]; exact hnine),
      Nat.min_eq_left (Nat.sub_le 9 width)]
  rw [List.cons_append]
  simp only [fraction, hdigits, hne, hpadded, Bool.false_eq_true, if_false,
    Numeral.value_append_zeros, Numeral.value_fixed, Nat.mod_eq_of_lt h, List.drop_left]

/-- A fraction of a second is read back, however many decimals it takes. -/
theorem fraction_writeFraction {nano : Nat} (h : nano < 1000000000) :
    fraction (writeFraction nano ++ ['Z']) = some (nano, ['Z']) := by
  rw [writeFraction]
  split
  · next hzero => rw [hzero]; rfl
  · split
    · next hmilli =>
      have hnano : nano / 1000000 * 10 ^ (9 - 3) = nano :=
        Nat.div_mul_cancel (Nat.dvd_of_mod_eq_zero hmilli)
      rw [fraction_decimals (by decide) (by decide) (by omega), hnano]
    · split
      · next hmicro =>
        have hnano : nano / 1000 * 10 ^ (9 - 6) = nano :=
          Nat.div_mul_cancel (Nat.dvd_of_mod_eq_zero hmicro)
        rw [fraction_decimals (by decide) (by decide) (by omega), hnano]
      · rw [fraction_decimals (by decide) (by decide) h, Nat.sub_self, Nat.pow_zero, Nat.mul_one]

theorem separator_cons (rest : List Char) : separator ('T' :: rest) = some ((), rest) :=
  rfl

theorem offset_zulu : offset ['Z'] = some (0, []) := by
  decide

/-! ## Instants -/

section TimeOfDay

variable {t : Instant} {time : Nat}

/-- The written second is the sixtieth in a leap second only. -/
theorem second_eq_sixty (htime : t.second % 86400 = time) :
    (time % 60 + (if t.leap then 1 else 0) == 60) = t.leap := by
  cases hleap : t.leap with
  | false => simpa using (Nat.mod_lt time (by decide)).ne
  | true =>
    have := t.second_mod_of_leap hleap
    simp only [if_true, beq_iff_eq]
    omega

/-- The written date and time of day make up the second. -/
theorem wall_eq (htime : t.second % 86400 = time) :
    (Date.ofDayNumber (t.second / 86400)).dayNumber * 86400 +
      (((time / 3600 : Nat) : Int) * 3600 + ((time / 60 % 60 : Nat) : Int) * 60 +
        ((if t.leap then 59 else time % 60 + (if t.leap then 1 else 0) : Nat) : Int)) =
      t.second := by
  rw [Date.dayNumber_ofDayNumber]
  cases hleap : t.leap with
  | false =>
    simp only [Bool.false_eq_true, if_false]
    omega
  | true =>
    have := t.second_mod_of_leap hleap
    simp only [if_true]
    omega

end TimeOfDay

/-- The text of an instant is read as the instant, and nothing is left of it. -/
theorem instant_write (t : Instant) :
    instant (write t.second t.nano t.leap) = some (t, []) := by
  obtain ⟨time, htime⟩ : ∃ time : Nat, t.second % 86400 = time :=
    Int.eq_ofNat_of_zero_le (Int.emod_nonneg _ (by decide))
  have hbound : time / 3600 ≤ 23 ∧ time / 60 % 60 ≤ 59 ∧
      time % 60 + (if t.leap then 1 else 0) ≤ 60 := by
    refine ⟨by omega, by omega, ?_⟩
    split <;> omega
  have hparts : Instant.ofParts? t.second t.nano t.leap = some t :=
    Instant.ofParts?_eq_some_iff.2 ⟨rfl, rfl, rfl⟩
  simp only [write, List.append_assoc, List.cons_append, htime, Int.toNat_natCast]
  rw [instant, run_bind (date_write (Date.exists_ofDayNumber _) _), run_bind (separator_cons _),
    run_bind (number_fixed (by decide) (by omega) _), run_bind (mark_cons (by decide) _),
    run_bind (number_fixed (by decide) (by omega) _), run_bind (mark_cons (by decide) _),
    run_bind (number_fixed (by decide) (by omega) _),
    run_bind (fraction_writeFraction t.nano_lt), run_bind offset_zulu]
  simp only [if_pos hbound, second_eq_sixty htime, wall_eq htime, Int.sub_zero, hparts]
  rfl

end TimeText

/-- The text of an instant stands for it. -/
theorem Instant.read?_text (t : Instant) : read? t.text = some t := by
  rw [read?, text, String.toList_ofList, TimeText.instant_write]
  rfl

end BlockArchive
