import Workflow.Time.Calendar

/-!
# Days and dates

The calendar has the date of every day, and numbering that date gives the day again.

## Main definitions

* `Date.yearLength`: the number of days in a year

## Main results

* `Date.exists_ofDay`: the calendar has the date of every day
* `Date.toDay_ofDay`: the date of a day has the number of that day
-/

namespace Workflow.Date

/-- The number of days in a year. -/
def yearLength (year : Int) : Nat :=
  if isLeap year then 366 else 365

theorem isLeap_iff (year : Int) :
    isLeap year = true ↔ year % 4 = 0 ∧ (year % 100 ≠ 0 ∨ year % 400 = 0) := by
  simp [isLeap]

theorem daysIn_le (year : Int) (month : Nat) : daysIn year month ≤ 31 := by
  unfold daysIn
  split <;> split <;> omega

theorem daysBeforeMonth_december (year : Int) :
    daysBeforeMonth year 12 + daysIn year 12 = yearLength year := by
  cases h : isLeap year <;> simp [daysBeforeMonth, daysIn, yearLength, h]

theorem daysBeforeMonth_succ (year : Int) (month : Nat) :
    daysBeforeMonth year (month + 1 + 1) =
      daysBeforeMonth year (month + 1) + daysIn year (month + 1) := rfl

/-- The search for a month loses no day: the days before the month that is found and those in it
are the days before the month the search began with and those that were left. -/
theorem ofDayOfYear_spec (year : Int) (month left remaining : Nat) (hm : month + remaining = 11)
    (hl : daysBeforeMonth year (month + 1) + left < yearLength year) :
    (ofDayOfYear year month left remaining).1 ≤ 11 ∧
      (ofDayOfYear year month left remaining).2 <
        daysIn year ((ofDayOfYear year month left remaining).1 + 1) ∧
      daysBeforeMonth year ((ofDayOfYear year month left remaining).1 + 1) +
          (ofDayOfYear year month left remaining).2 =
        daysBeforeMonth year (month + 1) + left := by
  -- by the months that remain: the day is in this one, or is counted from the next on
  induction remaining generalizing month left with
  | zero =>
    obtain rfl : month = 11 := by omega
    have hd := daysBeforeMonth_december year
    refine ⟨Nat.le_refl _, ?_, rfl⟩
    change left < daysIn year 12
    change daysBeforeMonth year 12 + left < _ at hl
    omega
  | succ remaining ih =>
    rw [ofDayOfYear]
    by_cases h : left < daysIn year (month + 1)
    · rw [if_pos h]
      exact ⟨by omega, h, rfl⟩
    · rw [if_neg h]
      have hb := daysBeforeMonth_succ year month
      obtain ⟨h₁, h₂, h₃⟩ :=
        ih (month + 1) (left - daysIn year (month + 1)) (by omega) (by omega)
      exact ⟨h₁, h₂, by omega⟩

/-- The parts into which the days of a date are divided: cycles of four hundred years, centuries,
groups of four years, years, and the day of the year. -/
structure Parts where
  cycle : Int
  century : Nat
  four : Nat
  one : Nat
  day : Nat

namespace Parts

/-- The parts of the days since the beginning of the year 1. -/
def ofDays (days : Int) : Parts :=
  let inCycle := (days % 146097).toNat
  let century := min 3 (inCycle / 36524)
  let inCentury := inCycle - century * 36524
  let one := min 3 (inCentury % 1461 / 365)
  ⟨days / 146097, century, inCentury / 1461, one, inCentury % 1461 - one * 365⟩

/-- The year of some parts. -/
def year (p : Parts) : Int :=
  400 * p.cycle + 100 * p.century + 4 * p.four + p.one + 1

theorem ofDays_eq (days : Int) :
    146097 * (ofDays days).cycle + 36524 * (ofDays days).century + 1461 * (ofDays days).four +
      365 * (ofDays days).one + (ofDays days).day = days := by
  have hd := Int.mul_ediv_add_emod days 146097
  have hm := Int.emod_nonneg days (by decide : (146097 : Int) ≠ 0)
  obtain ⟨inCycle, hi⟩ := Int.eq_ofNat_of_zero_le hm
  simp only [ofDays, hi, Int.toNat_natCast]
  rw [hi] at hd
  generalize days / 146097 = cycle at hd
  omega

/-- What is known of the parts of a day. The last day of a year of 366 days only comes in the
fourth year of a group, and not in the last group of a century unless the century is the last
one too. -/
theorem ofDays_bounds (days : Int) :
    (ofDays days).century ≤ 3 ∧ (ofDays days).four ≤ 24 ∧ (ofDays days).one ≤ 3 ∧
      ((ofDays days).day < 365 ∨
        (ofDays days).day = 365 ∧ (ofDays days).one = 3 ∧
          ((ofDays days).four ≠ 24 ∨ (ofDays days).century = 3)) := by
  have hlt : (days % 146097).toNat < 146097 := by omega
  simp only [ofDays]
  generalize (days % 146097).toNat = inCycle at hlt
  have hc : inCycle - min 3 (inCycle / 36524) * 36524 ≤ 36524 ∧
      (inCycle - min 3 (inCycle / 36524) * 36524 < 36524 ∨ min 3 (inCycle / 36524) = 3) := by
    omega
  have hcentury : min 3 (inCycle / 36524) ≤ 3 := Nat.min_le_left ..
  generalize inCycle - min 3 (inCycle / 36524) * 36524 = inCentury at hc
  generalize min 3 (inCycle / 36524) = century at hc hcentury
  omega

theorem daysBeforeYear_year {p : Parts} (hc : p.century ≤ 3) (hf : p.four ≤ 24) (ho : p.one ≤ 3) :
    daysBeforeYear p.year =
      146097 * p.cycle + 36524 * p.century + 1461 * p.four + 365 * p.one := by
  simp only [daysBeforeYear, year]
  omega

theorem day_lt_yearLength (days : Int) :
    (ofDays days).day < yearLength (ofDays days).year := by
  obtain ⟨hc, hf, ho, h | ⟨h, h₁, h₂⟩⟩ := ofDays_bounds days
  all_goals rw [yearLength]
  · split <;> omega
  · have leap : isLeap (ofDays days).year = true := by
      rw [isLeap_iff, year]
      omega
    rw [if_pos leap, h]
    decide

end Parts

theorem ofDay_eq {number : Int} {month day : Nat}
    (h : ofDayOfYear (Parts.ofDays (number + epoch)).year 0 (Parts.ofDays (number + epoch)).day 11 =
      (month, day)) :
    ofDay number = ⟨(Parts.ofDays (number + epoch)).year, month + 1, day + 1⟩ := by
  simp only [Parts.ofDays, Parts.year] at h
  simp only [ofDay, h, Parts.ofDays, Parts.year]

/-- The date of a day, found by year and by the search through its months. -/
theorem ofDay_spec (number : Int) :
    ∃ month day, ofDay number = ⟨(Parts.ofDays (number + epoch)).year, month + 1, day + 1⟩ ∧
      month ≤ 11 ∧ day < daysIn (Parts.ofDays (number + epoch)).year (month + 1) ∧
      daysBeforeMonth (Parts.ofDays (number + epoch)).year (month + 1) + day =
        (Parts.ofDays (number + epoch)).day := by
  have hl := Parts.day_lt_yearLength (number + epoch)
  have hb : daysBeforeMonth (Parts.ofDays (number + epoch)).year (0 + 1) = 0 := rfl
  have found := ofDayOfYear_spec (Parts.ofDays (number + epoch)).year 0
    (Parts.ofDays (number + epoch)).day 11 rfl (by omega)
  rw [hb, Nat.zero_add] at found
  obtain ⟨⟨month, day⟩, h⟩ : ∃ found, ofDayOfYear (Parts.ofDays (number + epoch)).year 0
    (Parts.ofDays (number + epoch)).day 11 = found := ⟨_, rfl⟩
  rw [h] at found
  exact ⟨month, day, ofDay_eq h, found⟩

/-- The calendar has the date of every day. -/
theorem exists_ofDay (number : Int) : (ofDay number).Exists := by
  obtain ⟨month, day, he, hm, hd, -⟩ := ofDay_spec number
  rw [he]
  exact ⟨Nat.succ_pos _, Nat.succ_le_succ hm, Nat.succ_pos _, hd⟩

/-- The date of a day has the number of that day. -/
theorem toDay_ofDay (number : Int) : (ofDay number).toDay = number := by
  obtain ⟨month, day, he, -, -, hb⟩ := ofDay_spec number
  have hp := Parts.ofDays_eq (number + epoch)
  obtain ⟨hc, hf, ho, -⟩ := Parts.ofDays_bounds (number + epoch)
  rw [he, toDay, Parts.daysBeforeYear_year hc hf ho]
  push_cast
  omega

end Workflow.Date
