import Workflow.Proofs.TimestampText

/-!
# Offsets from Universal Time

A local time in a zone is the time that the clock of Universal Time shows when the local clock
shows it: the local clock moved back, minute by minute, by the offset of the zone. Reading carries
and borrows as the clock does, across hours, days, months, leap years and years, in both
directions; it refuses a text exactly if this takes it out of the years of four digits; and texts
of one instant are one timestamp for every comparison and every hash.

## Main definitions

* `LocalTime.written`: the text of a local time in a zone
* `LocalTime.universal`: the clock of Universal Time
* `LocalTime.thousandths`: the fraction of the second, rounded down
* `Shows`: an instant is what a clock of Universal Time, a second and its thousandths show
* `Same`: neither comparison nor hashing tells two timestamps apart

## Main results

* `eq_iff_instant_eq`, `same_iff`: comparison looks at the instant only
* `parse_written`: a written local time is read, or refused for its year
* `parse_written_exact`: it is read as its instant, and texts of one instant are not told apart
-/

namespace Workflow.Timestamp

open Text (allDigits_padded digitsValue)

/-! ### The instant is all that comparison sees -/

theorem millis_lt (t : Timestamp) : t.millis < 1000 :=
  (t.fraction.getD firstMilli).isLt

theorem instant_eq_iff {s t : Timestamp} :
    s.instant = t.instant ↔ s.second = t.second ∧ s.leap = t.leap ∧ s.millis = t.millis := by
  simp only [instant, Instant.mk.injEq, Fin.mk.injEq]
  constructor
  · rintro ⟨hs, hl, hm⟩
    exact ⟨hs, hl, by omega⟩
  · rintro ⟨hs, hl, hm⟩
    exact ⟨hs, hl, by rw [hm]⟩

theorem sinceSecond_eq_iff {s t : Timestamp} :
    s.sinceSecond = t.sinceSecond ↔ s.leap = t.leap ∧ s.millis = t.millis := by
  have hs := s.millis_lt
  have ht := t.millis_lt
  unfold sinceSecond
  cases s.leap <;> cases t.leap <;> simp <;> omega

/-- Two timestamps are equal exactly if they are the same instant. -/
theorem eq_iff_instant_eq {s t : Timestamp} : s.eq t = true ↔ s.instant = t.instant := by
  rw [instant_eq_iff, ← sinceSecond_eq_iff]
  simp [eq]

/-- The same instants are ordered in the same way with respect to all others. -/
theorem cmp_congr {s s' t t' : Timestamp} (hs : s.instant = s'.instant)
    (ht : t.instant = t'.instant) : s.cmp t = s'.cmp t' := by
  obtain ⟨hs₁, hs₂⟩ := instant_eq_iff.mp hs
  obtain ⟨ht₁, ht₂⟩ := instant_eq_iff.mp ht
  rw [cmp, cmp, hs₁, ht₁, sinceSecond_eq_iff.mpr hs₂, sinceSecond_eq_iff.mpr ht₂]

theorem cmp_self (t : Timestamp) : t.cmp t = .eq := by
  simp [cmp]

/-- Neither comparison, with each other or with a third, nor any hasher tells two timestamps
apart. -/
def Same (t t' : Timestamp) : Prop :=
  t.eq t' = true ∧ t.cmp t' = .eq ∧ (∀ u, t.cmp u = t'.cmp u ∧ u.cmp t = u.cmp t') ∧
    ∀ (σ : Type) (hasher : Instant → σ → σ) (state : σ), t.hash hasher state = t'.hash hasher state

theorem same_iff {t t' : Timestamp} : t.Same t' ↔ t.instant = t'.instant := by
  constructor
  · exact fun h => eq_iff_instant_eq.mp h.1
  · intro h
    refine ⟨eq_iff_instant_eq.mpr h, ?_, fun u => ⟨cmp_congr h rfl, cmp_congr rfl h⟩, ?_⟩
    · rw [cmp_congr h rfl, cmp_self]
    · intro σ hasher state
      rw [hash, hash, h]

/-! ### What an instant shows -/

/-- An instant is what a clock of Universal Time shows, with a second, of which the sixtieth is the
leap second, and its thousandths. The minutes are counted on the clock from the epoch. -/
def Shows (i : Instant) (utc : Clock) (second millis : Nat) : Prop :=
  ∃ minute : Int, Clock.epoch.shift minute = utc ∧ i.second = 60 * minute + min second 59 ∧
    (i.leap = true ↔ second = 60) ∧ i.nanos.val = 1000000 * millis

/-- A clock, a second and its thousandths are shown by one instant only. -/
theorem Shows.unique {i j : Instant} {utc : Clock} {second millis : Nat}
    (hi : Shows i utc second millis) (hj : Shows j utc second millis) : i = j := by
  obtain ⟨m, hm, hs, hl, hn⟩ := hi
  obtain ⟨n, hn', hs', hl', hnanos⟩ := hj
  -- The epoch moved by different minutes is shown by different clocks.
  have hminute : m = n := by
    have h := congrArg Clock.number (hm.trans hn'.symm)
    simpa only [Clock.number_shift Clock.exists_epoch, Int.add_right_inj] using h
  obtain ⟨second₁, leap₁, nanos₁, ends₁⟩ := i
  obtain ⟨second₂, leap₂, nanos₂, ends₂⟩ := j
  simp only at hs hl hn hs' hl' hnanos
  rw [Instant.mk.injEq]
  refine ⟨by omega, ?_, Fin.ext (by omega)⟩
  rw [Bool.eq_iff_iff, hl, hl']

theorem shows_ofMinute {utc : Clock} (h : utc.Exists) {second : Nat} (hs : second ≤ 60)
    (fraction : Option (Fin 1000)) :
    Shows (ofMinute utc.number second fraction).instant utc second
      (fraction.getD firstMilli).val := by
  refine ⟨utc.number, Clock.epoch_shift_number h, ?_⟩
  unfold ofMinute
  split
  · next h60 =>
    subst h60
    exact ⟨by simp only [instant]; omega, by simp [instant], Nat.mul_comm ..⟩
  · next h60 =>
    exact ⟨by simp only [instant]; omega, by simp [instant, h60], Nat.mul_comm ..⟩

/-- The year of a timestamp is that of its clock. -/
theorem year_ofMinute {utc : Clock} (h : utc.Exists) {second : Nat} (hs : second ≤ 60)
    (fraction : Option (Fin 1000)) :
    (ofMinute utc.number second fraction).year = utc.date.year := by
  have hday : (ofMinute utc.number second fraction).second / 86400 = utc.number / 1440 := by
    unfold ofMinute
    split <;> simp only <;> omega
  rw [year_eq, hday, Clock.ofDay_number h]

/-! ### Local times -/

namespace LocalTime

variable (w : LocalTime)

/-- The text of a local time in a zone. -/
def written (mark : Mark) (z : Zone) : String :=
  String.ofList (w.text mark ++ z.text)

/-- What the clock of Universal Time shows: the local clock less the offset. -/
def universal (z : Zone) : Clock :=
  w.clock.shift (-z.minutes)

/-- The thousandths of the second, rounded down. -/
def thousandths : Nat :=
  match w.fraction with
  | none => 0
  | some f => 1000 * digitsValue f.digits / 10 ^ f.digits.length

theorem exists_universal (z : Zone) : (w.universal z).Exists :=
  Clock.exists_shift w.exists_clock _

theorem millis_eq : w.millis.val = w.thousandths := by
  unfold millis thousandths
  cases w.fraction with
  | none => rfl
  | some f => exact f.millis_eq

theorem number_universal (z : Zone) : (w.universal z).number = w.clock.number - z.minutes := by
  rw [universal, Clock.number_shift w.exists_clock, Int.sub_eq_add_neg]

/-- Two local times are one time of Universal Time if their numbers less the offsets are equal. -/
theorem universal_eq_iff {w w' : LocalTime} {z z' : Zone} :
    w.universal z = w'.universal z' ↔
      w.clock.number - z.minutes = w'.clock.number - z'.minutes := by
  rw [← number_universal, ← number_universal]
  exact ⟨congrArg Clock.number,
    Clock.number_injective (w.exists_universal z) (w'.exists_universal z')⟩

theorem date_universal (z : Zone) :
    (w.universal z).date = Date.ofDay ((w.clock.number - z.minutes) / 1440) := by
  rw [← number_universal, Clock.ofDay_number (w.exists_universal z)]

theorem timestamp_eq (z : Zone) : w.timestamp z = ofMinute (w.universal z).number w.second
    (if w.fraction.isSome ∨ z.inNumbers.isSome then some w.millis else none) := by
  rw [timestamp, number_universal]

/-- The timestamp is the instant at which the clock of Universal Time shows the time. -/
theorem shows_timestamp (z : Zone) :
    Shows (w.timestamp z).instant (w.universal z) w.second w.thousandths := by
  have hmillis : ((if w.fraction.isSome ∨ z.inNumbers.isSome then some w.millis
      else none).getD firstMilli).val = w.thousandths := by
    rw [← w.millis_eq]
    -- Whole seconds are the thousandths of a text without a fraction, shown or not.
    split
    · rfl
    · next hnone =>
      have hfraction : w.fraction = none := by simpa using (not_or.mp hnone).1
      rw [millis, hfraction]
      rfl
  rw [timestamp_eq, ← hmillis]
  exact shows_ofMinute (w.exists_universal z) w.second_le _

/-- A written local time is read, or refused for its year. -/
theorem parse_written (mark : Mark) (z : Zone) :
    parse (w.written mark z) =
      if 0 ≤ (w.universal z).date.year ∧ (w.universal z).date.year ≤ 9999 then
        .ok (w.timestamp z)
      else .error (.yearOutside (w.universal z).date.year) := by
  have hread : readStrict (w.written mark z).toList = .ok (w.timestamp z) := by
    rw [written, String.toList_ofList, readStrict_text]
  have hyear : (w.timestamp z).year = (w.universal z).date.year := by
    rw [timestamp_eq, year_ofMinute (w.exists_universal z) w.second_le]
  rw [parse_of_readStrict hread, checkRange, hyear]
  split <;> rfl

end LocalTime

/-- A local time that is written with its zone is read, as the instant at which the clock of
Universal Time shows it, to the millisecond, exactly if that clock shows a year of four digits;
otherwise that year is reported. Two texts of one instant are read as timestamps that nothing tells
apart, whatever zones they are written for. -/
theorem parse_written_exact :
    (∀ (w : LocalTime) (mark : Mark) (z : Zone), (w.universal z).Exists ∧
      if 0 ≤ (w.universal z).date.year ∧ (w.universal z).date.year ≤ 9999 then
        ∃ t, parse (w.written mark z) = .ok t ∧
          Shows t.instant (w.universal z) w.second w.thousandths
      else parse (w.written mark z) = .error (.yearOutside (w.universal z).date.year)) ∧
    ∀ (w w' : LocalTime) (mark mark' : Mark) (z z' : Zone), w.universal z = w'.universal z' →
      w.second = w'.second → w.thousandths = w'.thousandths →
      0 ≤ (w.universal z).date.year ∧ (w.universal z).date.year ≤ 9999 →
      ∃ t t', parse (w.written mark z) = .ok t ∧ parse (w'.written mark' z') = .ok t' ∧
        t.Same t' := by
  constructor
  · intro w mark z
    refine ⟨w.exists_universal z, ?_⟩
    rw [w.parse_written mark z]
    split
    · exact ⟨_, rfl, w.shows_timestamp z⟩
    · rfl
  · intro w w' mark mark' z z' hclock hsecond hthousandths hyear
    have hread := w.parse_written mark z
    have hread' := w'.parse_written mark' z'
    rw [if_pos hyear] at hread
    rw [if_pos (hclock ▸ hyear)] at hread'
    -- The precisions may differ: what the texts share is the instant that both clocks show.
    have hshows := w.shows_timestamp z
    rw [hclock, hsecond, hthousandths] at hshows
    exact ⟨_, _, hread, hread', same_iff.mpr (hshows.unique (w'.shows_timestamp z'))⟩

/-- The leap second at the end of 2016, in New York. -/
def leapInNewYork : LocalTime where
  clock := ⟨⟨2016, 12, 31⟩, 18, 59⟩
  second := 60
  fraction := some ⟨Text.padded 13 1239999999999, by decide +kernel, allDigits_padded _ _⟩
  exists_clock := by decide
  year_nonneg := by decide
  year_le := by decide
  second_le := by decide

/-- The same millisecond in Adelaide, where it is in 2017. -/
def leapInAdelaide : LocalTime where
  clock := ⟨⟨2017, 1, 1⟩, 10, 29⟩
  second := 60
  fraction := some (.ofMillis ⟨123, by decide⟩)
  exists_clock := by decide
  year_nonneg := by decide
  year_le := by decide
  second_le := by decide

/-- A second before two in the first morning of the year 0. -/
def firstMorning : LocalTime where
  clock := ⟨⟨0, 1, 1⟩, 1, 59⟩
  second := 59
  fraction := none
  exists_clock := by decide
  year_nonneg := by decide
  year_le := by decide
  second_le := by decide

/-- The leap second in New York and the one in Adelaide are one instant; and when it is nearly two
in the first morning of the year 0 in Cairo, that year has not begun. -/
theorem parse_written_exact_leap :
    (∃ t t', parse "2016-12-31T18:59:60.1239999999999-05:00" = .ok t ∧
      parse "2017-01-01t10:29:60.123+10:30" = .ok t' ∧ t.Same t') ∧
    parse "0000-01-01 01:59:59+02:00" = .error (.yearOutside (-1)) := by
  have hnewYork : leapInNewYork.written .upper (.offset .hyphen 5 0) =
      "2016-12-31T18:59:60.1239999999999-05:00" := by decide +kernel
  have hadelaide : leapInAdelaide.written .lower (.offset .plus 10 30) =
      "2017-01-01t10:29:60.123+10:30" := by decide +kernel
  have hcairo : firstMorning.written .space (.offset .plus 2 0) =
      "0000-01-01 01:59:59+02:00" := by decide +kernel
  have hclock : leapInNewYork.universal (.offset .hyphen 5 0) =
      leapInAdelaide.universal (.offset .plus 10 30) :=
    LocalTime.universal_eq_iff.mpr (by decide)
  have hyear : 0 ≤ (leapInNewYork.universal (.offset .hyphen 5 0)).date.year ∧
      (leapInNewYork.universal (.offset .hyphen 5 0)).date.year ≤ 9999 := by
    rw [LocalTime.date_universal]
    decide +kernel
  have hbefore : (firstMorning.universal (.offset .plus 2 0)).date.year = -1 := by
    rw [LocalTime.date_universal]
    decide +kernel
  have hmorning := parse_written_exact.1 firstMorning .space (.offset .plus 2 0)
  rw [hbefore, hcairo, if_neg (by decide)] at hmorning
  have hleap := parse_written_exact.2 leapInNewYork leapInAdelaide .upper .lower _ _ hclock rfl
    (by decide +kernel) hyear
  rw [hnewYork, hadelaide] at hleap
  exact ⟨hleap, hmorning.2⟩

end Workflow.Timestamp
