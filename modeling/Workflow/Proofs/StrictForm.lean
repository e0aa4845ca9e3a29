import Mathlib.Data.List.Basic
import Workflow.Proofs.Clock
import Workflow.Proofs.Digits
import Workflow.Proofs.Readers
import Workflow.Time.Reader

/-!
# The strict form of a timestamp

The texts of the strict form, given by what they say: a minute of the calendar, a second, a
fraction of any length and a zone. The reader of the strict form accepts these texts and no
others, and the timestamp it gives is computed from what they say.

## Main definitions

* `Fraction`, `Mark`, `Zone`: the parts of a text that may be written in several ways
* `LocalTime`: a time of day of a day, as the strict form can write it
* `LocalTime.text`, `LocalTime.timestamp`: its text, and the timestamp it stands for in a zone

## Main results

* `Fraction.millis_eq`: of a fraction the thousandths are kept, rounded down
* `readStrict_eq_ok`: the texts of the strict form, and their timestamps
-/

namespace Workflow.Timestamp

open Text (AllDigits Stops allDigits_padded digitsValue digitsValue_padded length_padded
  padded_digitsValue)

/-! ### Digits and marks -/

theorem readDigits_append {digits : List Char} (hd : AllDigits digits) (rest : List Char)
    (value : Nat) :
    readDigits digits.length value (digits ++ rest) =
      .ok (Nat.ofDigitChars 10 digits value, rest) := by
  induction digits generalizing value with
  | nil => rfl
  | cons c digits ih =>
    have hc : c.isDigit = true := hd c (List.mem_cons_self ..)
    simp only [List.length_cons, List.cons_append, readDigits, if_pos hc]
    exact ih (fun d h => hd d (List.mem_cons_of_mem c h)) _

theorem readDigits_padded {width n : Nat} (hw : 0 < width) (hn : n < 10 ^ width)
    (rest : List Char) : readDigits width 0 (Text.padded width n ++ rest) = .ok (n, rest) := by
  have h := readDigits_append (allDigits_padded width n) rest 0
  rw [length_padded hw hn, ← Text.digitsValue_eq, digitsValue_padded] at h
  exact h

/-- What was read as digits were digits. -/
theorem exists_digits_of_readDigits {width value n : Nat} {text rest : List Char}
    (h : readDigits width value text = .ok (n, rest)) :
    ∃ digits, AllDigits digits ∧ digits.length = width ∧ text = digits ++ rest := by
  induction width generalizing value text with
  | zero =>
    obtain ⟨rfl, rfl⟩ : value = n ∧ text = rest := by simpa [readDigits] using h
    exact ⟨[], by simp [AllDigits], rfl, rfl⟩
  | succ width ih =>
    cases text with
    | nil => cases h
    | cons c text =>
      rw [readDigits] at h
      split at h
      · next hc =>
        obtain ⟨digits, hd, hl, rfl⟩ := ih h
        exact ⟨c :: digits, List.forall_mem_cons.mpr ⟨hc, hd⟩, by simp [hl], rfl⟩
      · cases h

theorem readDigits_eq_ok {width n : Nat} (hw : 0 < width) {text rest : List Char} :
    readDigits width 0 text = .ok (n, rest) ↔
      n < 10 ^ width ∧ text = Text.padded width n ++ rest := by
  constructor
  · intro h
    obtain ⟨digits, hd, rfl, rfl⟩ := exists_digits_of_readDigits h
    rw [readDigits_append hd, ← Text.digitsValue_eq, Except.ok.injEq, Prod.mk.injEq] at h
    obtain ⟨rfl, -⟩ := h
    rw [padded_digitsValue hd (List.length_pos_iff.mp hw)]
    exact ⟨Text.digitsValue_lt hd, rfl⟩
  · rintro ⟨hn, rfl⟩
    exact readDigits_padded hw hn rest

theorem readMark_eq_ok {marks text rest : List Char} :
    readMark marks text = .ok rest ↔ ∃ c ∈ marks, text = c :: rest := by
  cases text with
  | nil => simp [readMark]
  | cons c text =>
    simp only [readMark, List.cons.injEq]
    constructor
    · intro h
      split at h
      · next hc => exact ⟨c, hc, rfl, Except.ok.inj h⟩
      · cases h
    · rintro ⟨d, hd, rfl, rfl⟩
      rw [if_pos hd]

/-! ### Fractions -/

/-- A fraction of a second as it is written: one digit or more. -/
structure Fraction where
  digits : List Char
  digits_ne_nil : digits ≠ []
  allDigits : AllDigits digits

/-- The thousandths that a reader keeps. -/
def Fraction.millis (f : Fraction) : Fin 1000 :=
  fractionMillis f.digits

/-- What is written behind the seconds. -/
def Fraction.text : Option Fraction → List Char
  | none => []
  | some f => '.' :: f.digits

/-- Three digits are read, with zeros for those that are missing: this is the value of all of them
in thousandths, rounded down. -/
theorem Fraction.millis_eq (f : Fraction) :
    f.millis.val = 1000 * digitsValue f.digits / 10 ^ f.digits.length := by
  -- The digits that are kept are the first three of these, whatever the length of the fraction; the
  -- others are worth less than one of the last place that is kept.
  let filled := f.digits ++ ['0', '0', '0']
  have hfilled : AllDigits filled := f.allDigits.append (Text.allDigits_replicate_zero 3)
  have htaken : AllDigits (filled.take 3) := fun c hc => hfilled c (List.mem_of_mem_take hc)
  have hdropped : AllDigits (filled.drop 3) := fun c hc => hfilled c (List.mem_of_mem_drop hc)
  have hvalue : digitsValue filled = 1000 * digitsValue f.digits := by
    rw [Text.digitsValue_append, show digitsValue ['0', '0', '0'] = 0 from rfl]
    simp [Nat.mul_comm]
  have hsplit := Text.digitsValue_append (filled.take 3) (filled.drop 3)
  have hlength : (filled.drop 3).length = f.digits.length := by simp [filled]
  have hlt := Text.digitsValue_lt hdropped
  rw [List.take_append_drop, hvalue, hlength] at hsplit
  rw [hlength] at hlt
  have hthree : digitsValue (filled.take 3) < 1000 := by
    have h := Text.digitsValue_lt htaken
    rwa [List.length_take_of_le (by simp [filled])] at h
  rw [hsplit, Nat.mul_comm, Nat.mul_add_div (Nat.pow_pos (by omega)), Nat.div_eq_of_lt hlt,
    Nat.add_zero]
  exact Nat.mod_eq_of_lt hthree

theorem exists_fraction_of_readFraction {text rest : List Char} {millis : Option (Fin 1000)}
    (h : readFraction text = .ok (millis, rest)) :
    ∃ f : Option Fraction, text = Fraction.text f ++ rest ∧ millis = f.map Fraction.millis := by
  unfold readFraction at h
  split at h
  · next text =>
    split at h
    · cases h
    · next hne =>
      obtain ⟨rfl, rfl⟩ : some (fractionMillis (text.takeWhile Char.isDigit)) = millis ∧
          text.dropWhile Char.isDigit = rest := by simpa using h
      refine ⟨some ⟨text.takeWhile Char.isDigit, hne, fun c hc => ?_⟩, ?_, rfl⟩
      · exact List.mem_takeWhile_imp hc
      · simp [Fraction.text, List.takeWhile_append_dropWhile]
  · obtain ⟨rfl, rfl⟩ : none = millis ∧ text = rest := by simpa using h
    exact ⟨none, rfl, rfl⟩

/-- A character with which a fraction would begin or go on. -/
def goesOn (c : Char) : Bool := c == '.' || c.isDigit

theorem readFraction_append (f : Option Fraction) {rest : List Char} (hs : Stops goesOn rest) :
    readFraction (Fraction.text f ++ rest) = .ok (f.map Fraction.millis, rest) := by
  cases f with
  | none =>
    cases rest with
    | nil => rfl
    | cons c rest =>
      have hc : c ≠ '.' := by
        rintro rfl
        exact absurd (hs '.' rfl) (by decide)
      simp only [Fraction.text, List.nil_append, Option.map_none]
      unfold readFraction
      split
      · next he => exact absurd (List.cons.inj he).1 hc
      · rfl
  | some f =>
    have hd : Stops Char.isDigit rest := fun c hc => by
      have := hs c hc
      simp only [goesOn, Bool.or_eq_false_iff] at this
      exact this.2
    simp only [Fraction.text, List.cons_append, readFraction, Text.takeWhile_append f.allDigits hd,
      Text.dropWhile_append f.allDigits hd, Option.map_some]
    split
    · next he => exact absurd he f.digits_ne_nil
    · rfl

/-! ### Zones -/

/-- What stands between the date and the time. -/
inductive Mark where
  | upper
  | lower
  | space

def Mark.char : Mark → Char
  | upper => 'T'
  | lower => 't'
  | space => ' '

theorem Mark.mem_marks (mark : Mark) : mark.char ∈ ['T', 't', ' '] := by
  cases mark <;> decide

theorem Mark.exists_of_mem {c : Char} (h : c ∈ ['T', 't', ' ']) : ∃ mark : Mark, mark.char = c := by
  simp only [List.mem_cons, List.not_mem_nil, or_false] at h
  rcases h with rfl | rfl | rfl
  · exact ⟨.upper, rfl⟩
  · exact ⟨.lower, rfl⟩
  · exact ⟨.space, rfl⟩

/-- The sign of an offset: plus, the hyphen for minus, or the minus sign. -/
inductive Sign where
  | plus
  | hyphen
  | minus

def Sign.char : Sign → Char
  | plus => '+'
  | hyphen => '-'
  | minus => '\u2212'

def Sign.value : Sign → Int
  | plus => 1
  | hyphen => -1
  | minus => -1

/-- How the offset from Universal Time is given: by a letter, or in hours and minutes. -/
inductive Zone where
  | letter (small : Bool)
  | offset (sign : Sign) (hours : Fin 24) (minutes : Fin 60)

namespace Zone

def text : Zone → List Char
  | letter small => [if small then 'z' else 'Z']
  | offset sign hours minutes =>
    sign.char :: Text.padded 2 hours ++ ':' :: Text.padded 2 minutes

/-- The minutes to the east, if they are given in numbers. -/
def inNumbers : Zone → Option Int
  | letter _ => none
  | offset sign hours minutes => some (sign.value * (hours * 60 + minutes : Nat))

/-- The minutes to the east. -/
def minutes (z : Zone) : Int := z.inNumbers.getD 0

theorem natAbs_minutes_lt (z : Zone) : z.minutes.natAbs < 1440 := by
  cases z with
  | letter small => exact Nat.zero_lt_succ _
  | offset sign hours minutes =>
    have hh := hours.isLt
    have hm := minutes.isLt
    cases sign <;> simp only [Zone.minutes, inNumbers, Sign.value, Option.getD_some] <;> omega

end Zone

/-- Two digits write their number in two places. -/
theorem padded_pair {a b : Char} (ha : a.isDigit = true) (hb : b.isDigit = true) :
    a.toNat - '0'.toNat < 10 ∧ b.toNat - '0'.toNat < 10 ∧
      Text.padded 2 (10 * (a.toNat - '0'.toNat) + (b.toNat - '0'.toNat)) = [a, b] := by
  have hd : AllDigits [a, b] := by simp [AllDigits, ha, hb]
  have ha' := Text.toNat_of_isDigit ha
  have hb' := Text.toNat_of_isDigit hb
  rw [show '0'.toNat = 48 from rfl]
  refine ⟨by omega, by omega, ?_⟩
  simpa [digitsValue] using padded_digitsValue hd (by simp)

theorem readPair_eq_ok {text rest : List Char} {a b : Nat} :
    readPair text = .ok (a, b, rest) ↔
      a < 10 ∧ b < 10 ∧ text = Text.padded 2 (10 * a + b) ++ rest := by
  constructor
  · intro h
    unfold readPair at h
    split at h
    · next c d text =>
      split at h
      · next hcd =>
        obtain ⟨hc, hd⟩ := Bool.and_eq_true_iff.mp hcd
        obtain ⟨rfl, rfl, rfl⟩ :
            c.toNat - '0'.toNat = a ∧ d.toNat - '0'.toNat = b ∧ text = rest := by simpa using h
        obtain ⟨hc', hd', hp⟩ := padded_pair hc hd
        exact ⟨hc', hd', by rw [hp]; rfl⟩
      · cases h
    · cases h
  · rintro ⟨ha, hb, rfl⟩
    have hl : (Text.padded 2 (10 * a + b)).length = 2 := length_padded (by omega) (by omega)
    obtain ⟨c, d, hcd⟩ : ∃ c d, Text.padded 2 (10 * a + b) = [c, d] := List.length_eq_two.mp hl
    have hdigits := allDigits_padded 2 (10 * a + b)
    have hvalue := digitsValue_padded 2 (10 * a + b)
    rw [hcd] at hdigits hvalue
    have hc := hdigits c (by simp)
    have hd := hdigits d (by simp)
    obtain ⟨hc', hd', -⟩ := padded_pair hc hd
    have hsum : 10 * (c.toNat - '0'.toNat) + (d.toNat - '0'.toNat) = 10 * a + b := by
      simpa [digitsValue] using hvalue
    rw [hcd]
    simp only [List.cons_append, List.nil_append, readPair, hc, hd, Bool.and_self, if_true,
      Except.ok.injEq, Prod.mk.injEq, and_true]
    omega

theorem readOffsetMinutes_eq_ok {text rest : List Char} {minutes : Nat} :
    readOffsetMinutes text = .ok (minutes, rest) ↔
      ∃ h m, h < 100 ∧ m < 60 ∧ minutes = h * 60 + m ∧
        text = Text.padded 2 h ++ ':' :: (Text.padded 2 m ++ rest) := by
  simp only [readOffsetMinutes, bind_eq_ok, Prod.exists, readPair_eq_ok, readMark_eq_ok,
    List.mem_singleton]
  constructor
  · rintro ⟨h₁, h₂, _, ⟨hh₁, hh₂, rfl⟩, _, ⟨_, rfl, rfl⟩, m₁, m₂, _, ⟨hm₁, hm₂, rfl⟩, h⟩
    split at h
    · cases h
    · obtain ⟨rfl, rfl⟩ := Prod.mk.inj (Except.ok.inj h)
      exact ⟨10 * h₁ + h₂, 10 * m₁ + m₂, by omega, by omega, rfl, rfl⟩
  · rintro ⟨h, m, hh, hm, rfl, rfl⟩
    have hpair : 10 * (h / 10) + h % 10 = h := Nat.div_add_mod h 10
    have mpair : 10 * (m / 10) + m % 10 = m := Nat.div_add_mod m 10
    refine ⟨h / 10, h % 10, ':' :: (Text.padded 2 m ++ rest), ⟨by omega, by omega, by rw [hpair]⟩,
      Text.padded 2 m ++ rest, ⟨':', rfl, rfl⟩, m / 10, m % 10, rest,
      ⟨by omega, by omega, by rw [mpair]⟩, ?_⟩
    rw [if_neg (by omega), hpair, mpair]

theorem readOffset_text (z : Zone) (rest : List Char) :
    readOffset (z.text ++ rest) = .ok (z.inNumbers, rest) := by
  cases z with
  | letter small => cases small <;> rfl
  | offset sign hours minutes =>
    have h : readOffsetMinutes (Text.padded 2 hours ++ ':' :: (Text.padded 2 minutes ++ rest)) =
        .ok (hours * 60 + minutes, rest) :=
      readOffsetMinutes_eq_ok.mpr
        ⟨hours, minutes, Nat.lt_trans hours.isLt (by omega), minutes.isLt, rfl, rfl⟩
    cases sign <;> simp [Zone.text, Zone.inNumbers, Sign.char, Sign.value, readOffset, h]

/-- An offset of less than a day is that of a zone. -/
theorem exists_zone_of_readOffset {text rest : List Char} {shift : Option Int}
    (h : readOffset text = .ok (shift, rest)) (hlt : (shift.getD 0).natAbs < 1440) :
    ∃ z : Zone, text = z.text ++ rest ∧ shift = z.inNumbers := by
  cases text with
  | nil => cases h
  | cons c text =>
    rw [readOffset] at h
    split at h
    · next hc =>
      obtain ⟨rfl, rfl⟩ := Prod.mk.inj (Except.ok.inj h)
      rcases hc with rfl | rfl
      · exact ⟨.letter false, rfl, rfl⟩
      · exact ⟨.letter true, rfl, rfl⟩
    · split at h
      · next hc =>
        subst hc
        simp only [bind_eq_ok, Prod.exists, readOffsetMinutes_eq_ok] at h
        obtain ⟨_, _, ⟨hours, minutes, hh, hm, rfl, rfl⟩, he⟩ := h
        obtain ⟨rfl, rfl⟩ := Prod.mk.inj (Except.ok.inj he)
        simp only [Option.getD_some] at hlt
        -- Two digits may be more than 23, but then the offset is a day or more.
        refine ⟨.offset .plus ⟨hours, by omega⟩ ⟨minutes, hm⟩, ?_, ?_⟩
        · simp [Zone.text, Sign.char]
        · simp [Zone.inNumbers, Sign.value]
      · split at h
        · next hc =>
          obtain ⟨sign, rfl, hsign⟩ : ∃ sign : Sign, sign.char = c ∧ sign.value = -1 := by
            rcases hc with rfl | rfl
            · exact ⟨.hyphen, rfl, rfl⟩
            · exact ⟨.minus, rfl, rfl⟩
          simp only [bind_eq_ok, Prod.exists, readOffsetMinutes_eq_ok] at h
          obtain ⟨_, _, ⟨hours, minutes, hh, hm, rfl, rfl⟩, he⟩ := h
          obtain ⟨rfl, rfl⟩ := Prod.mk.inj (Except.ok.inj he)
          simp only [Option.getD_some, Int.natAbs_neg] at hlt
          refine ⟨.offset sign ⟨hours, by omega⟩ ⟨minutes, hm⟩, ?_, ?_⟩
          · simp [Zone.text]
          · simp [Zone.inNumbers, hsign]
        · cases h

/-! ### The whole form -/

/-- A time of day of a day, as the strict form can write it: the year has four digits, and second
60 is the leap second. -/
structure LocalTime where
  clock : Clock
  second : Nat
  fraction : Option Fraction
  exists_clock : clock.Exists
  year_nonneg : 0 ≤ clock.date.year
  year_le : clock.date.year ≤ 9999
  second_le : second ≤ 60

namespace LocalTime

/-- The text of a local time, which a zone follows. -/
def text (w : LocalTime) (mark : Mark) : List Char :=
  dateText w.clock.date ++ mark.char :: Text.padded 2 w.clock.hour ++
    ':' :: Text.padded 2 w.clock.minute ++ ':' :: Text.padded 2 w.second ++ Fraction.text w.fraction

/-- The thousandths of the second. -/
def millis (w : LocalTime) : Fin 1000 :=
  (w.fraction.map Fraction.millis).getD firstMilli

/-- The timestamp of a local time in a zone. -/
def timestamp (w : LocalTime) (z : Zone) : Timestamp :=
  ofMinute (w.clock.number - z.minutes) w.second
    (if w.fraction.isSome ∨ z.inNumbers.isSome then some w.millis else none)

theorem timestamp_letter (w : LocalTime) (small : Bool) :
    w.timestamp (.letter small) =
      ofMinute w.clock.number w.second (w.fraction.map Fraction.millis) := by
  rw [timestamp]
  cases h : w.fraction <;> simp [Zone.minutes, Zone.inNumbers, millis, h]

end LocalTime

section

variable (w : LocalTime)

namespace LocalTime

theorem yearText_eq : yearText w.clock.date.year = Text.padded 4 w.clock.date.year.toNat :=
  if_pos ⟨w.year_nonneg, w.year_le⟩

theorem year_lt : w.clock.date.year.toNat < 10 ^ 4 := by
  have hy := w.year_le
  omega

theorem month_lt : w.clock.date.month < 10 ^ 2 :=
  Nat.lt_of_le_of_lt w.exists_clock.1.2.1 (by omega)

theorem day_lt : w.clock.date.day < 10 ^ 2 :=
  Nat.lt_of_le_of_lt (Nat.le_trans w.exists_clock.1.2.2.2 (Date.daysIn_le _ _)) (by omega)

theorem hour_lt : w.clock.hour < 10 ^ 2 :=
  Nat.lt_trans w.exists_clock.2.1 (by omega)

theorem minute_lt : w.clock.minute < 10 ^ 2 :=
  Nat.lt_trans w.exists_clock.2.2 (by omega)

theorem second_lt : w.second < 10 ^ 2 :=
  Nat.lt_of_le_of_lt w.second_le (by omega)

/-- The date takes ten bytes. -/
theorem byteLength_dateText : Text.byteLength (dateText w.clock.date) = 10 := by
  have hyphen : '-'.utf8Size = 1 := rfl
  simp only [dateText, w.yearText_eq, Text.byteLength_append, Text.byteLength, hyphen,
    Text.byteLength_of_allDigits (allDigits_padded _ _), length_padded (by omega : 0 < 4) w.year_lt,
    length_padded (by omega : 0 < 2) w.month_lt, length_padded (by omega : 0 < 2) w.day_lt]

theorem le_byteLength_text (mark : Mark) (rest : List Char) :
    19 ≤ Text.byteLength (w.text mark ++ rest) := by
  have hmark := mark.char.utf8Size_pos
  have colon : ':'.utf8Size = 1 := rfl
  simp only [text, Text.byteLength_append, Text.byteLength, colon, w.byteLength_dateText,
    Text.byteLength_of_allDigits (allDigits_padded _ _), length_padded (by omega : 0 < 2) w.hour_lt,
    length_padded (by omega : 0 < 2) w.minute_lt, length_padded (by omega : 0 < 2) w.second_lt]
  omega

end LocalTime

/-- A zone does not go on from the fraction. -/
theorem Zone.stops_text (z : Zone) : Stops goesOn z.text := by
  cases z with
  | letter small => cases small <;> exact .cons rfl []
  | offset sign hours minutes => cases sign <;> exact .cons rfl _

/-- A local time in a zone is read as what it says. -/
theorem readStrict_text (mark : Mark) (z : Zone) :
    readStrict (w.text mark ++ z.text) = .ok (w.timestamp z) := by
  have hlength := w.le_byteLength_text mark z.text
  have hdate : (⟨(w.clock.date.year.toNat : Nat), w.clock.date.month, w.clock.date.day⟩ : Date) =
      w.clock.date := by
    rw [Int.toNat_of_nonneg w.year_nonneg]
  have hoffset := readOffset_text z []
  have htime : ¬(23 < w.clock.hour ∨ 59 < w.clock.minute ∨ 60 < w.second) := by
    have hh := w.exists_clock.2.1
    have hm := w.exists_clock.2.2
    have hs := w.second_le
    omega
  have hzone : ¬1440 ≤ (z.inNumbers.getD 0).natAbs := Nat.not_le.mpr z.natAbs_minutes_lt
  rw [List.append_nil] at hoffset
  rw [readStrict, if_neg (Nat.not_lt.mpr hlength)]
  simp only [LocalTime.text, dateText, w.yearText_eq, List.append_assoc, List.cons_append,
    readDigits_padded (by omega : 0 < 4) w.year_lt, readDigits_padded (by omega : 0 < 2) w.month_lt,
    readDigits_padded (by omega : 0 < 2) w.day_lt, readDigits_padded (by omega : 0 < 2) w.hour_lt,
    readDigits_padded (by omega : 0 < 2) w.minute_lt,
    readDigits_padded (by omega : 0 < 2) w.second_lt,
    readMark_eq_ok.mpr ⟨_, List.mem_singleton_self _, rfl⟩,
    readMark_eq_ok.mpr ⟨_, mark.mem_marks, rfl⟩, readFraction_append w.fraction z.stops_text,
    hoffset, ok_bind, hdate, if_pos w.exists_clock.1, if_neg htime, if_neg hzone,
    List.isEmpty_nil, if_true]
  simp [LocalTime.timestamp, LocalTime.millis, Clock.number, Zone.minutes]

end

/-- The texts of the strict form, and the timestamps they stand for. -/
theorem readStrict_eq_ok {text : List Char} {t : Timestamp} :
    readStrict text = .ok t ↔
      ∃ (w : LocalTime) (mark : Mark) (z : Zone), text = w.text mark ++ z.text ∧
        t = w.timestamp z := by
  constructor
  · intro h
    simp only [readStrict, ite_throw_eq_ok, ite_else_throw_eq_ok, bind_eq_ok, Prod.exists,
      readDigits_eq_ok (by omega : 0 < 2), readDigits_eq_ok (by omega : 0 < 4), readMark_eq_ok,
      List.mem_singleton] at h
    -- The parts in the order of the text, each with what is left of the text behind it.
    obtain ⟨-, year, _, ⟨hyear, rfl⟩, _, ⟨_, rfl, rfl⟩, month, _, ⟨-, rfl⟩, _, ⟨_, rfl, rfl⟩,
      day, _, ⟨-, rfl⟩, hdate, _, ⟨_, hmark, rfl⟩, hour, _, ⟨-, rfl⟩, _, ⟨_, rfl, rfl⟩,
      minute, _, ⟨-, rfl⟩, _, ⟨_, rfl, rfl⟩, second, _, ⟨-, rfl⟩, millis, _, hfraction, htime,
      shift, rest, hzone, hrest, hshift, ht⟩ := h
    obtain ⟨fraction, rfl, rfl⟩ := exists_fraction_of_readFraction hfraction
    obtain ⟨z, rfl, rfl⟩ := exists_zone_of_readOffset hzone (Nat.not_le.mp hshift)
    obtain ⟨mark, rfl⟩ := Mark.exists_of_mem hmark
    obtain rfl := List.isEmpty_iff.mp hrest
    rw [pure_eq_ok] at ht
    subst ht
    let w : LocalTime :=
      { clock := ⟨⟨year, month, day⟩, hour, minute⟩
        second, fraction
        exists_clock := Clock.exists_mk.mpr ⟨hdate, by omega, by omega⟩
        year_nonneg := Int.natCast_nonneg year
        year_le := Int.ofNat_le.mpr (Nat.le_of_lt_succ hyear)
        second_le := by omega }
    refine ⟨w, mark, z, ?_, ?_⟩
    · simp [w, LocalTime.text, dateText, w.yearText_eq]
    · simp [w, LocalTime.timestamp, LocalTime.millis, Clock.number, Zone.minutes]
  · rintro ⟨w, mark, z, rfl, rfl⟩
    exact readStrict_text w mark z

end Workflow.Timestamp
