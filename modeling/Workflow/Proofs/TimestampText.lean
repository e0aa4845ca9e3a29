import Workflow.Proofs.LenientForm

/-!
# The text of a timestamp reads back

The canonical text of a timestamp is in the strict form, and it is read as the timestamp it was
written from: the instant, and whether milliseconds are shown.

## Main definitions

* `Timestamp.toLocal`: a timestamp as a local time of Universal Time
* `Timestamp.ReadsBack`: the text of a timestamp is read as the same instant, with the same
  precision and the same text

## Main results

* `Timestamp.parse_text`: the text of a timestamp of a year of four digits reads back
* `Timestamp.text_reads_back`: so does the text of whatever was read, and of every instant of such
  a year, shown at any offset
-/

namespace Workflow.Timestamp

open Text (allDigits_padded digitsValue_padded length_padded)

theorem year_eq (t : Timestamp) : t.year = (Date.ofDay (t.second / 86400)).year := by
  rw [year, daySecond]

theorem checkRange_eq_ok {t : Timestamp} :
    t.checkRange = .ok () ↔ 0 ≤ t.year ∧ t.year ≤ 9999 := by
  simp [checkRange]

/-- Thousandths are written as a fraction of three digits. -/
def Fraction.ofMillis (millis : Fin 1000) : Fraction where
  digits := Text.padded 3 millis
  digits_ne_nil := by simp [Text.padded, Nat.toDigits_ne_nil]
  allDigits := allDigits_padded 3 millis

theorem Fraction.millis_ofMillis (millis : Fin 1000) : (ofMillis millis).millis = millis := by
  have hl : (Text.padded 3 millis).length = 3 := length_padded (by omega) millis.isLt
  apply Fin.ext
  simp only [Fraction.millis, ofMillis, fractionMillis]
  rw [List.take_append_of_le_length (by omega), List.take_of_length_le (by omega),
    digitsValue_padded, Nat.mod_eq_of_lt millis.isLt]

/-- The instant that the numbers of a text say. -/
theorem ofMinute_parts (t : Timestamp) :
    ofMinute (t.second / 86400 * 1440 + ((t.second % 86400).toNat / 3600 : Nat) * 60 +
        ((t.second % 86400).toNat / 60 % 60 : Nat))
      ((t.second % 86400).toNat % 60 + if t.leap then 1 else 0) t.fraction = t := by
  obtain ⟨second, leap, fraction, ends⟩ := t
  cases leap with
  | false =>
    have hs : (second % 86400).toNat % 60 ≠ 60 := by omega
    simp only [ofMinute, Bool.false_eq_true, if_false, Nat.add_zero, if_neg hs, mk.injEq, and_true]
    omega
  | true =>
    have he := ends rfl
    have hs : (second % 86400).toNat % 60 + 1 = 60 := by omega
    simp only [ofMinute, if_true, if_pos hs, mk.injEq, and_true]
    omega

/-- A timestamp of a year of four digits, as a local time of Universal Time. -/
def toLocal (t : Timestamp) (h : t.checkRange = .ok ()) : LocalTime where
  clock := ⟨Date.ofDay (t.second / 86400), (t.second % 86400).toNat / 3600,
    (t.second % 86400).toNat / 60 % 60⟩
  second := (t.second % 86400).toNat % 60 + if t.leap then 1 else 0
  fraction := t.fraction.map Fraction.ofMillis
  exists_clock := Clock.exists_mk.mpr ⟨Date.exists_ofDay _, by omega, by omega⟩
  year_nonneg := t.year_eq ▸ (checkRange_eq_ok.mp h).1
  year_le := t.year_eq ▸ (checkRange_eq_ok.mp h).2
  second_le := by split <;> omega

theorem text_toLocal {t : Timestamp} (h : t.checkRange = .ok ()) :
    t.text.toList = (t.toLocal h).text .upper ++ (Zone.letter false).text := by
  obtain ⟨second, leap, fraction, ends⟩ := t
  rw [text, String.toList_ofList]
  cases fraction <;> rfl

theorem timestamp_toLocal {t : Timestamp} (h : t.checkRange = .ok ()) :
    (t.toLocal h).timestamp (.letter false) = t := by
  have hfraction : (t.toLocal h).fraction.map Fraction.millis = t.fraction := by
    have hid : Fraction.millis ∘ Fraction.ofMillis = id := funext Fraction.millis_ofMillis
    simp only [toLocal, Option.map_map, hid, Option.map_id_fun, id]
  have hnumber : (t.toLocal h).clock.number =
      t.second / 86400 * 1440 + ((t.second % 86400).toNat / 3600 : Nat) * 60 +
        ((t.second % 86400).toNat / 60 % 60 : Nat) := by
    simp only [toLocal, Clock.number, Date.toDay_ofDay]
  rw [LocalTime.timestamp_letter, hfraction, hnumber]
  exact ofMinute_parts t

/-- The text of a timestamp of a year of four digits reads back: the same instant, with the same
precision. -/
theorem parse_text {t : Timestamp} (h : t.checkRange = .ok ()) : parse t.text = .ok t :=
  parse_eq_ok.mpr
    ⟨h, .inl ⟨t.toLocal h, .upper, .letter false, text_toLocal h, (timestamp_toLocal h).symm⟩⟩

/-! ### What is written is read again -/

/-- An instant, rounded down to the millisecond. -/
def wholeMillis (i : Instant) : Instant :=
  { i with nanos := ⟨i.nanos / 1000000 * 1000000, by omega⟩ }

theorem millis_ofInstant (i : Instant) (offset : Int) :
    (ofInstant i offset).millis = i.nanos / 1000000 := by
  simp only [millis, ofInstant]
  split
  · next h =>
    rw [h.2.1]
    rfl
  · rfl

/-- The timestamp of an instant is that instant to the millisecond, at whatever offset it was
shown. -/
theorem instant_ofInstant (i : Instant) (offset : Int) :
    (ofInstant i offset).instant = wholeMillis i := by
  simp only [instant, wholeMillis, millis_ofInstant]
  rfl

/-- The text of a timestamp is read as the same instant with the same precision, and that has the
same text. -/
def ReadsBack (t : Timestamp) : Prop :=
  ∃ again, parse t.text = .ok again ∧ again.instant = t.instant ∧
    again.precision = t.precision ∧ again.text = t.text

theorem readsBack_of_checkRange {t : Timestamp} (h : t.checkRange = .ok ()) : t.ReadsBack :=
  ⟨t, parse_text h, rfl, rfl, rfl⟩

/-- Every timestamp that was read from a text reads back from its own, and so does the timestamp
of every instant of a year of four digits, shown at any offset, which is that instant to the
millisecond. -/
theorem text_reads_back :
    (∀ (s : String) (t : Timestamp), parse s = .ok t → t.ReadsBack) ∧
      ∀ (i : Instant) (offset : Int), (ofInstant i offset).checkRange = .ok () →
        (ofInstant i offset).instant = wholeMillis i ∧ (ofInstant i offset).ReadsBack := by
  constructor
  · intro s t h
    exact readsBack_of_checkRange (parse_eq_ok.mp h).1
  · intro i offset h
    exact ⟨instant_ofInstant i offset, readsBack_of_checkRange h⟩

/-- The last instant that is shown in a leap second of the year 9999. -/
def lastLeap : Instant where
  second := 253402300799
  leap := true
  nanos := 999999999
  leap_ends_minute := by decide

/-- A leap second without a fraction reads back from its text, and one with a fraction that was
shown at another offset. -/
theorem text_reads_back_leap :
    (∃ t, parse "2016-12-31T23:59:60Z" = .ok t ∧ t.ReadsBack) ∧
      (ofInstant lastLeap 3600).checkRange = .ok () ∧ (ofInstant lastLeap 3600).ReadsBack := by
  have hread : (parse "2016-12-31T23:59:60Z").toOption.isSome = true := by decide +kernel
  have hrange : (ofInstant lastLeap 3600).checkRange = .ok () := by decide +kernel
  obtain ⟨t, ht⟩ := exists_ok_of_isSome hread
  exact ⟨⟨t, ht, text_reads_back.1 _ t ht⟩, hrange, (text_reads_back.2 lastLeap 3600 hrange).2⟩

end Workflow.Timestamp
