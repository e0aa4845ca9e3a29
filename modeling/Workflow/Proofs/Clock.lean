import Mathlib.Logic.Function.Iterate
import Mathlib.Tactic.Ring
import Workflow.Proofs.Calendar

/-!
# Carrying and borrowing

The clock goes on by a minute and carries into the hour, the day, the month and the year; it goes
back and borrows from them. Moving it minute by minute says what an offset does to a time without
counting any days, and the number of a day, which is what readers and writers compute with, agrees
with it.

## Main definitions

* `Date.next`, `Date.previous`: the day after and the day before
* `Clock`: a date with an hour and a minute
* `Clock.shift`: the clock so many minutes later, or earlier
* `Clock.epoch`: midnight of 1970-01-01
* `Clock.number`: the minutes counted from the epoch

## Main results

* `Date.toDay_next`, `Date.toDay_previous`: neighbouring days have neighbouring numbers
* `Date.ofDay_toDay`: the day with the number of a date is that date
* `Clock.number_shift`, `Clock.epoch_shift_number`: the number of a time counts minutes
-/

namespace Workflow

namespace Date

/-- The day after. Behind the last day of a month comes the next month, and behind December the
next year. -/
def next (d : Date) : Date :=
  if d.day < daysIn d.year d.month then ⟨d.year, d.month, d.day + 1⟩
  else if d.month < 12 then ⟨d.year, d.month + 1, 1⟩
  else ⟨d.year + 1, 1, 1⟩

/-- The day before. -/
def previous (d : Date) : Date :=
  if 1 < d.day then ⟨d.year, d.month, d.day - 1⟩
  else if 1 < d.month then ⟨d.year, d.month - 1, daysIn d.year (d.month - 1)⟩
  else ⟨d.year - 1, 12, 31⟩

theorem exists_mk {year : Int} {month day : Nat} :
    Exists ⟨year, month, day⟩ ↔
      1 ≤ month ∧ month ≤ 12 ∧ 1 ≤ day ∧ day ≤ daysIn year month := Iff.rfl

theorem one_le_daysIn (year : Int) (month : Nat) : 1 ≤ daysIn year month := by
  unfold daysIn
  split <;> split <;> omega

theorem daysIn_december (year : Int) : daysIn year 12 = 31 := rfl

theorem daysBeforeYear_succ (year : Int) :
    daysBeforeYear (year + 1) = daysBeforeYear year + yearLength year := by
  have hl := isLeap_iff year
  simp only [daysBeforeYear, yearLength]
  split <;> simp_all <;> omega

theorem toDay_month_succ (year : Int) {month : Nat} (h : 1 ≤ month) :
    toDay ⟨year, month + 1, 1⟩ = toDay ⟨year, month, 1⟩ + daysIn year month := by
  obtain ⟨month, rfl⟩ := Nat.exists_eq_add_of_le' h
  simp only [toDay, daysBeforeMonth_succ]
  omega

theorem toDay_year_succ (year : Int) :
    toDay ⟨year + 1, 1, 1⟩ = toDay ⟨year, 12, 31⟩ + 1 := by
  have hy := daysBeforeYear_succ year
  have hm := daysBeforeMonth_december year
  rw [daysIn_december] at hm
  simp only [toDay, hy, ← hm, daysBeforeMonth]
  omega

theorem toDay_day (year : Int) (month day : Nat) :
    toDay ⟨year, month, day⟩ = toDay ⟨year, month, 1⟩ + day - 1 := by
  simp only [toDay]
  omega

theorem exists_next {d : Date} (h : d.Exists) : d.next.Exists := by
  obtain ⟨year, month, day⟩ := d
  obtain ⟨hm, hm', hd, hd'⟩ := exists_mk.mp h
  have hnext := one_le_daysIn year (month + 1)
  have hjanuary := one_le_daysIn (year + 1) 1
  simp only [next]
  split
  · rw [exists_mk]
    omega
  · split <;> rw [exists_mk] <;> omega

theorem toDay_next {d : Date} (h : d.Exists) : d.next.toDay = d.toDay + 1 := by
  obtain ⟨year, month, day⟩ := d
  obtain ⟨hm, hm', hd, hd'⟩ := exists_mk.mp h
  have here := toDay_day year month day
  simp only [next]
  -- The day stays in its month, carries into the next month, or carries into the next year.
  split
  · rw [toDay_day]
    omega
  · split
    · rw [toDay_month_succ year hm]
      omega
    · obtain rfl : month = 12 := by omega
      rw [daysIn_december] at hd'
      obtain rfl : day = 31 := by
        have := daysIn_december year
        omega
      exact toDay_year_succ year

theorem exists_previous {d : Date} (h : d.Exists) : d.previous.Exists := by
  obtain ⟨year, month, day⟩ := d
  obtain ⟨hm, hm', hd, hd'⟩ := exists_mk.mp h
  have hprevious := one_le_daysIn year (month - 1)
  have hdecember := daysIn_december (year - 1)
  simp only [previous]
  split
  · rw [exists_mk]
    omega
  · split <;> rw [exists_mk] <;> omega

/-- The day after the day before is the day itself. -/
theorem next_previous {d : Date} (h : d.Exists) : d.previous.next = d := by
  obtain ⟨year, month, day⟩ := d
  obtain ⟨hm, hm', hd, hd'⟩ := exists_mk.mp h
  simp only [previous]
  -- A borrowed day is the last of its month: the way forward carries where the way back borrowed.
  split
  · simp only [next, if_pos (show day - 1 < daysIn year month by omega), mk.injEq, true_and]
    omega
  · split
    · simp only [next, if_neg (Nat.lt_irrefl _), if_pos (show month - 1 < 12 by omega), mk.injEq,
        true_and]
      omega
    · simp only [next, daysIn_december, if_neg (Nat.lt_irrefl _), mk.injEq]
      omega

theorem toDay_previous {d : Date} (h : d.Exists) : d.previous.toDay = d.toDay - 1 := by
  -- Going back is the inverse of going on, whose number is known.
  have hn := toDay_next (exists_previous h)
  rw [next_previous h] at hn
  omega

/-! ### Different dates have different numbers -/

theorem daysBeforeYear_le {y z : Int} (h : y < z) :
    daysBeforeYear y + yearLength y ≤ daysBeforeYear z := by
  rw [← daysBeforeYear_succ]
  simp only [daysBeforeYear]
  omega

theorem daysBeforeMonth_le (year : Int) {m n : Nat} (hm : 1 ≤ m) (h : m < n) :
    daysBeforeMonth year m + daysIn year m ≤ daysBeforeMonth year n := by
  obtain ⟨m, rfl⟩ := Nat.exists_eq_add_of_le' hm
  rw [← daysBeforeMonth_succ]
  induction n, h using Nat.le_induction with
  | base => exact Nat.le_refl _
  | succ n hn ih =>
    obtain ⟨n, rfl⟩ := Nat.exists_eq_add_of_le' (Nat.le_of_lt (Nat.lt_of_le_of_lt hm hn))
    have hs := daysBeforeMonth_succ year n
    omega

theorem dayOfYear_le {d : Date} (h : d.Exists) :
    daysBeforeMonth d.year d.month + d.day ≤ yearLength d.year := by
  obtain ⟨hm, hm', hd, hd'⟩ := h
  have hl := daysBeforeMonth_december d.year
  rcases Nat.lt_or_eq_of_le hm' with hlt | heq
  · have := daysBeforeMonth_le d.year hm hlt
    omega
  · rw [heq] at hd' ⊢
    omega

theorem year_le_of_toDay_eq {c d : Date} (hc : c.Exists) (hd : d.Exists)
    (h : c.toDay = d.toDay) : c.year ≤ d.year := by
  have hle := dayOfYear_le hd
  have hpos := hc.2.2.1
  -- Otherwise all of the year of `d` is over before that of `c` begins.
  by_contra hlt
  have := daysBeforeYear_le (Int.not_le.mp hlt)
  simp only [toDay] at h
  omega

theorem month_le_of_toDay_eq {c d : Date} (hc : c.Exists) (hd : d.Exists)
    (hy : c.year = d.year) (h : c.toDay = d.toDay) : c.month ≤ d.month := by
  have hle := hd.2.2.2
  have hpos := hc.2.2.1
  by_contra hlt
  have := daysBeforeMonth_le d.year hd.1 (Nat.not_le.mp hlt)
  simp only [toDay, hy] at h
  omega

theorem toDay_injective {c d : Date} (hc : c.Exists) (hd : d.Exists) (h : c.toDay = d.toDay) :
    c = d := by
  have hy : c.year = d.year :=
    Int.le_antisymm (year_le_of_toDay_eq hc hd h) (year_le_of_toDay_eq hd hc h.symm)
  have hm : c.month = d.month :=
    Nat.le_antisymm (month_le_of_toDay_eq hc hd hy h) (month_le_of_toDay_eq hd hc hy.symm h.symm)
  have hday : c.day = d.day := by
    simp only [toDay, hy, hm] at h
    omega
  obtain ⟨year, month, day⟩ := c
  obtain ⟨year', month', day'⟩ := d
  obtain rfl : year = year' := hy
  obtain rfl : month = month' := hm
  obtain rfl : day = day' := hday
  rfl

/-- The day with the number of a date is that date. -/
theorem ofDay_toDay {d : Date} (h : d.Exists) : ofDay d.toDay = d :=
  toDay_injective (exists_ofDay _) h (toDay_ofDay _)

end Date

/-- A minute of a day. -/
structure Clock where
  date : Date
  hour : Nat
  minute : Nat
  deriving DecidableEq

namespace Clock

/-- The calendar has the date, and the day has the minute. -/
def Exists (c : Clock) : Prop :=
  c.date.Exists ∧ c.hour < 24 ∧ c.minute < 60

theorem exists_mk {date : Date} {hour minute : Nat} :
    Exists ⟨date, hour, minute⟩ ↔ date.Exists ∧ hour < 24 ∧ minute < 60 := Iff.rfl

instance (c : Clock) : Decidable c.Exists :=
  inferInstanceAs (Decidable (c.date.Exists ∧ c.hour < 24 ∧ c.minute < 60))

/-- The minute after. -/
def next (c : Clock) : Clock :=
  if c.minute < 59 then ⟨c.date, c.hour, c.minute + 1⟩
  else if c.hour < 23 then ⟨c.date, c.hour + 1, 0⟩
  else ⟨c.date.next, 0, 0⟩

/-- The minute before. -/
def previous (c : Clock) : Clock :=
  if 0 < c.minute then ⟨c.date, c.hour, c.minute - 1⟩
  else if 0 < c.hour then ⟨c.date, c.hour - 1, 59⟩
  else ⟨c.date.previous, 23, 59⟩

/-- So many minutes later, or earlier if they are negative. -/
def shift (c : Clock) : Int → Clock
  | .ofNat minutes => next^[minutes] c
  | .negSucc minutes => previous^[minutes + 1] c

/-- Midnight of 1970-01-01. -/
def epoch : Clock := ⟨⟨1970, 1, 1⟩, 0, 0⟩

/-- The minutes counted from the epoch, by the number of the day. -/
def number (c : Clock) : Int :=
  c.date.toDay * 1440 + c.hour * 60 + c.minute

theorem exists_epoch : epoch.Exists := by decide

theorem number_epoch : epoch.number = 0 := by decide

/-! ### One minute -/

theorem exists_next {c : Clock} (h : c.Exists) : c.next.Exists := by
  obtain ⟨date, hour, minute⟩ := c
  obtain ⟨hd, hh, hm⟩ := exists_mk.mp h
  have hd' := Date.exists_next hd
  simp only [next]
  split
  · exact exists_mk.mpr ⟨hd, hh, by omega⟩
  · split
    · exact exists_mk.mpr ⟨hd, by omega, by omega⟩
    · exact exists_mk.mpr ⟨hd', by omega, by omega⟩

theorem number_next {c : Clock} (h : c.Exists) : c.next.number = c.number + 1 := by
  obtain ⟨hd, hh, hm⟩ := h
  have hn := Date.toDay_next hd
  unfold next
  split
  · simp only [number]
    omega
  · split
    · simp only [number]
      omega
    · simp only [number, hn]
      omega

theorem exists_previous {c : Clock} (h : c.Exists) : c.previous.Exists := by
  obtain ⟨date, hour, minute⟩ := c
  obtain ⟨hd, hh, hm⟩ := exists_mk.mp h
  have hd' := Date.exists_previous hd
  simp only [previous]
  split
  · exact exists_mk.mpr ⟨hd, hh, by omega⟩
  · split
    · exact exists_mk.mpr ⟨hd, by omega, by omega⟩
    · exact exists_mk.mpr ⟨hd', by omega, by omega⟩

theorem number_previous {c : Clock} (h : c.Exists) : c.previous.number = c.number - 1 := by
  obtain ⟨hd, hh, hm⟩ := h
  have hp := Date.toDay_previous hd
  unfold previous
  split
  · simp only [number]
    omega
  · split
    · simp only [number]
      omega
    · simp only [number, hp]
      omega

/-! ### Many minutes -/

/-- What one step does to the number of a time, many steps do as often. -/
theorem iterate_steps {step : Clock → Clock} {rate : Int}
    (hs : ∀ c : Clock, c.Exists → (step c).Exists ∧ (step c).number = c.number + rate) {c : Clock}
    (h : c.Exists) (count : Nat) :
    (step^[count] c).Exists ∧ (step^[count] c).number = c.number + count * rate := by
  -- A step is only known to count on times that exist, so their existence is carried along.
  induction count with
  | zero => exact ⟨h, by simp⟩
  | succ count ih =>
    obtain ⟨he, hn⟩ := hs _ ih.1
    rw [Function.iterate_succ_apply']
    refine ⟨he, ?_⟩
    rw [hn, ih.2]
    push_cast
    ring

theorem shift_spec {c : Clock} (h : c.Exists) (minutes : Int) :
    (c.shift minutes).Exists ∧ (c.shift minutes).number = c.number + minutes := by
  cases minutes with
  | ofNat minutes =>
    obtain ⟨he, hn⟩ := iterate_steps (fun _ hc => ⟨exists_next hc, number_next hc⟩) h minutes
    exact ⟨he, by rw [shift, hn]; simp⟩
  | negSucc minutes =>
    obtain ⟨he, hn⟩ :=
      iterate_steps (fun _ hc => ⟨exists_previous hc, number_previous hc⟩) h (minutes + 1)
    exact ⟨he, by rw [shift, hn, Int.negSucc_eq]; push_cast; ring⟩

theorem exists_shift {c : Clock} (h : c.Exists) (minutes : Int) : (c.shift minutes).Exists :=
  (shift_spec h minutes).1

theorem number_shift {c : Clock} (h : c.Exists) (minutes : Int) :
    (c.shift minutes).number = c.number + minutes :=
  (shift_spec h minutes).2

/-- The date of a time is the date of the day in which its number lies. -/
theorem ofDay_number {c : Clock} (h : c.Exists) : Date.ofDay (c.number / 1440) = c.date := by
  obtain ⟨hd, hh, hm⟩ := h
  have hn : c.number / 1440 = c.date.toDay := by
    simp only [number]
    omega
  rw [hn, Date.ofDay_toDay hd]

theorem number_injective {c d : Clock} (hc : c.Exists) (hd : d.Exists)
    (h : c.number = d.number) : c = d := by
  have hdate : c.date = d.date := by rw [← ofDay_number hc, ← ofDay_number hd, h]
  obtain ⟨-, hch, hcm⟩ := hc
  obtain ⟨-, hdh, hdm⟩ := hd
  obtain ⟨date, hour, minute⟩ := c
  obtain ⟨date', hour', minute'⟩ := d
  obtain rfl : date = date' := hdate
  simp only [number] at h hch hcm hdh hdm
  obtain rfl : hour = hour' := by omega
  obtain rfl : minute = minute' := by omega
  rfl

/-- The number of a time counts the minutes from the epoch to it. -/
theorem epoch_shift_number {c : Clock} (h : c.Exists) : epoch.shift c.number = c := by
  apply number_injective (exists_shift exists_epoch _) h
  rw [number_shift exists_epoch, number_epoch, Int.zero_add]

end Clock

end Workflow
