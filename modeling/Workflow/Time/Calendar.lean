/-!
# The calendar

Days of the Gregorian calendar, extended without change to all years, and their number counted
from 1970-01-01.

## Main definitions

* `Date`: a year, a month and a day
* `Date.Exists`: whether the calendar has the day
* `Date.toDay`, `Date.ofDay`: the number of a day, and the day of a number
-/

namespace Workflow

/-- A day of the calendar, given by year, month and day of the month. -/
structure Date where
  year : Int
  month : Nat
  day : Nat
  deriving DecidableEq

namespace Date

/-- Whether a year has a 29th of February. -/
def isLeap (year : Int) : Bool :=
  year % 4 == 0 && (year % 100 != 0 || year % 400 == 0)

/-- The length of a month, the months being numbered from one. -/
def daysIn (year : Int) (month : Nat) : Nat :=
  if month = 2 then if isLeap year then 29 else 28
  else if month = 4 ∨ month = 6 ∨ month = 9 ∨ month = 11 then 30
  else 31

/-- The calendar has the day. -/
def Exists (d : Date) : Prop :=
  1 ≤ d.month ∧ d.month ≤ 12 ∧ 1 ≤ d.day ∧ d.day ≤ daysIn d.year d.month

instance (d : Date) : Decidable d.Exists :=
  inferInstanceAs (Decidable (1 ≤ d.month ∧ d.month ≤ 12 ∧ 1 ≤ d.day ∧ d.day ≤ _))

/-- The days from 0001-01-01 to the first of January of a year. -/
def daysBeforeYear (year : Int) : Int :=
  let past := year - 1
  365 * past + past / 4 - past / 100 + past / 400

/-- The days of a year that lie before a month. -/
def daysBeforeMonth (year : Int) : (month : Nat) → Nat
  | 0 | 1 => 0
  | month + 2 => daysBeforeMonth year (month + 1) + daysIn year (month + 1)

/-- The days from 0001-01-01 to 1970-01-01. -/
def epoch : Int := 719162

/-- The number of a day, counted from 1970-01-01. -/
def toDay (d : Date) : Int :=
  daysBeforeYear d.year + daysBeforeMonth d.year d.month + d.day - 1 - epoch

/-- The month and the day of the month of a day of a year, both counted from zero, searched from
`month` on. -/
def ofDayOfYear (year : Int) (month : Nat) (left : Nat) : (remaining : Nat) → Nat × Nat
  | 0 => (month, left)
  | remaining + 1 =>
    let length := daysIn year (month + 1)
    if left < length then (month, left)
    else ofDayOfYear year (month + 1) (left - length) remaining

/-- The day of a number counted from 1970-01-01. Four hundred years have 146097 days; of the
centuries in them the first three, and of the years in four the first three, have their common
length. -/
def ofDay (number : Int) : Date :=
  let days := number + epoch
  let cycle := days / 146097
  let inCycle := (days % 146097).toNat
  let century := min 3 (inCycle / 36524)
  let inCentury := inCycle - century * 36524
  let four := inCentury / 1461
  let inFour := inCentury % 1461
  let one := min 3 (inFour / 365)
  let year := 400 * cycle + 100 * century + 4 * four + one + 1
  let (month, day) := ofDayOfYear year 0 (inFour - one * 365) 11
  ⟨year, month + 1, day + 1⟩

end Date

end Workflow
