import Workflow.Proofs.LenientForm

/-!
# The Precision of a Timestamp that Was Read

A timestamp is to show its milliseconds if its text has a fraction of a second or is off Universal
Time, and whole seconds otherwise. What is read goes by the spelling: milliseconds are also shown
for an offset of zero that is given in numbers, and these texts are all that are read otherwise
than they should be.

## Main definitions

* `Form`: a text of the strict or of the lenient form, by what it says
* `EndsInLetter`: a text that ends in the letter of Universal Time

## Main results

* `Form.point_mem_text`, `Zone.endsInLetter_iff`: what the characters of a text tell of its form
* `precision_iff_characters`: the precision goes by these characters
* `parse_eq_ok_form`: a text is read as what its form says
* `precision_of_parse`: the precision that a text is read with
* `zero_offset_shows_millis`: an offset of zero in numbers is not the letter Z
-/

namespace Workflow.Timestamp

open Text (AllDigits allDigits_padded isBlank)

/-- A text of the strict or of the lenient form, by what it says. -/
inductive Form where
  | strict (w : LocalTime) (mark : Mark) (z : Zone)
  | lenient (f : LenientTime)

namespace Form

def text : Form → List Char
  | strict w mark z => w.text mark ++ z.text
  | lenient f => f.text

def timestamp : Form → Timestamp
  | strict w _ z => w.timestamp z
  | lenient f => f.timestamp

/-- The fraction of the second, if there is one. -/
def fraction : Form → Option Fraction
  | strict w _ _ => w.fraction
  | lenient f => f.fraction

/-- The minutes to the east of Universal Time, if they are given in numbers. -/
def inNumbers : Form → Option Int
  | strict _ _ z => z.inNumbers
  | lenient _ => none

/-- The minutes to the east of Universal Time, which a text without them is in. -/
def offset (form : Form) : Int := form.inNumbers.getD 0

end Form

/-! ### Where a point stands -/

theorem point_not_mem_digits {digits : List Char} (h : AllDigits digits) : '.' ∉ digits :=
  fun hm => absurd (h '.' hm) (by decide)

@[simp]
theorem point_not_mem_padded (width n : Nat) : '.' ∉ Text.padded width n :=
  point_not_mem_digits (allDigits_padded width n)

@[simp]
theorem point_mem_fraction (f : Option Fraction) : '.' ∈ Fraction.text f ↔ f.isSome := by
  cases f <;> simp [Fraction.text]

@[simp]
theorem Mark.point_ne_char (mark : Mark) : '.' ≠ mark.char := by
  cases mark <;> decide

@[simp]
theorem Zone.point_not_mem_text (z : Zone) : '.' ∉ z.text := by
  cases z with
  | letter small => cases small <;> decide
  | offset sign hours minutes => cases sign <;> simp [Zone.text, Sign.char]

theorem Numeral.point_not_mem_blanks (n : Numeral) : '.' ∉ n.blanks :=
  fun hm => absurd (n.allBlank '.' hm) (by decide)

@[simp]
theorem Numeral.point_not_mem_text (n : Numeral) : '.' ∉ n.text := by
  simp [Numeral.text, n.point_not_mem_blanks, point_not_mem_digits n.allDigits]

@[simp]
theorem YearNumeral.point_not_mem_text (n : YearNumeral) : '.' ∉ n.text := by
  cases n with
  | short number length_le => exact number.point_not_mem_text
  | signed negative number =>
    cases negative <;>
      simp [YearNumeral.text, number.point_not_mem_blanks, point_not_mem_digits number.allDigits]

/-- A point stands in front of a fraction only. -/
theorem Form.point_mem_text (form : Form) : '.' ∈ form.text ↔ form.fraction.isSome := by
  cases form with
  | strict w mark z => simp [Form.text, Form.fraction, LocalTime.text, dateText, w.yearText_eq]
  | lenient f => simp [Form.text, Form.fraction, LenientTime.text]

/-! ### What stands at the end -/

/-- A text ends in the letter of Universal Time. -/
def EndsInLetter (text : List Char) : Prop := text.getLast? = some 'Z' ∨ text.getLast? = some 'z'

/-- A text ends in the letter exactly if its zone is not given in numbers. -/
theorem Zone.endsInLetter_iff (z : Zone) (before : List Char) :
    EndsInLetter (before ++ z.text) ↔ z.inNumbers = none := by
  cases z with
  | letter small => cases small <;> simp [EndsInLetter, text, inNumbers]
  | offset sign hours minutes =>
    -- the last character is the last digit of the minutes
    have last {c : Char} (h : (before ++ (offset sign hours minutes).text).getLast? = some c) :
        c.isDigit = true := by
      have shape : before ++ (offset sign hours minutes).text =
          (before ++ sign.char :: Text.padded 2 hours ++ [':']) ++ Text.padded 2 minutes := by
        simp [text]
      rw [shape, List.getLast?_append_of_ne_nil _ (by simp [Text.padded])] at h
      exact allDigits_padded 2 minutes c (List.mem_of_getLast? h)
    refine iff_of_false ?_ (by simp [inNumbers])
    rintro (h | h) <;> exact absurd (last h) (by decide)

/-! ### What a form is read as -/

/-- A text is read as what its form says. -/
theorem parse_eq_ok_form {s : String} {t : Timestamp} {form : Form} (hs : s.toList = form.text) :
    parse s = .ok t ↔ t.checkRange = .ok () ∧ t = form.timestamp := by
  have hread : parse s = form.timestamp.checkRange.map fun _ => form.timestamp := by
    cases form with
    | strict w mark z =>
      apply parse_of_readStrict
      rw [hs]
      exact readStrict_text w mark z
    | lenient f =>
      obtain ⟨fault, hfault⟩ := exists_fault_of_lenient hs
      exact parse_of_readLenient hfault (readLenient_eq_some.mpr ⟨f, hs, rfl⟩)
  rw [hread, map_eq_ok, exists_unit]
  constructor <;> rintro ⟨hrange, rfl⟩ <;> exact ⟨hrange, rfl⟩

theorem precision_ofMinute (minute : Int) (second : Nat) (fraction : Option (Fin 1000)) :
    (ofMinute minute second fraction).precision = .millis ↔ fraction.isSome := by
  unfold ofMinute
  split <;> cases fraction <;> simp [precision]

theorem Form.precision_timestamp (form : Form) :
    form.timestamp.precision = .millis ↔ form.fraction.isSome ∨ form.inNumbers.isSome := by
  cases form with
  | strict w mark z =>
    simp only [Form.timestamp, Form.fraction, Form.inNumbers, LocalTime.timestamp,
      precision_ofMinute]
    split <;> simp_all
  | lenient f =>
    simp [Form.timestamp, Form.fraction, Form.inNumbers, LenientTime.timestamp, precision_ofMinute]

/-- A text is read with milliseconds exactly if there is a point in it, or if it is of the strict form
and does not end in the letter of Universal Time. -/
theorem precision_iff_characters {s : String} {t : Timestamp} (h : parse s = .ok t) :
    t.precision = .millis ↔
      '.' ∈ s.toList ∨ (∃ u, readStrict s.toList = .ok u) ∧ ¬EndsInLetter s.toList := by
  obtain ⟨-, ⟨w, mark, z, hs, rfl⟩ | ⟨f, hs, rfl⟩⟩ := parse_eq_ok.mp h
  -- in the strict form the two tests tell a fraction and an offset in numbers
  · have shown : (w.timestamp z).precision = .millis ↔ w.fraction.isSome ∨ z.inNumbers.isSome :=
      Form.precision_timestamp (.strict w mark z)
    have point : '.' ∈ s.toList ↔ w.fraction.isSome := hs ▸ Form.point_mem_text (.strict w mark z)
    have letter : EndsInLetter s.toList ↔ z.inNumbers = none :=
      hs ▸ z.endsInLetter_iff (w.text mark)
    have strict : ∃ u, readStrict s.toList = .ok u := ⟨_, hs ▸ readStrict_text w mark z⟩
    rw [shown, point, letter, and_iff_right strict, ← ne_eq, ← Option.isSome_iff_ne_none]
  · have shown : f.timestamp.precision = .millis ↔ f.fraction.isSome :=
      (Form.precision_timestamp (.lenient f)).trans (or_iff_left nofun)
    have point : '.' ∈ s.toList ↔ f.fraction.isSome := hs ▸ Form.point_mem_text (.lenient f)
    -- a text of the lenient form is not of the strict one, so its end does not matter
    obtain ⟨fault, refused⟩ := exists_fault_of_lenient hs
    rw [shown, point, refused]
    simp

/-- A text that is read is of one of the two forms; it is read with milliseconds exactly if it has
a fraction, which is where its only point is, or gives its offset in numbers. This is as it should
be, with milliseconds exactly for a fraction or an offset other than zero, unless the text has no
fraction and gives an offset of zero in numbers. -/
theorem precision_of_parse {s : String} {t : Timestamp} (h : parse s = .ok t) :
    (∃ form : Form, s.toList = form.text) ∧ ∀ form : Form, s.toList = form.text →
      (form.fraction.isSome ↔ '.' ∈ s.toList) ∧
      (t.precision = .millis ↔ form.fraction.isSome ∨ form.inNumbers.isSome) ∧
      ((t.precision = .millis ↔ form.fraction.isSome ∨ form.offset ≠ 0) ↔
        ¬(form.fraction = none ∧ form.inNumbers = some 0)) := by
  constructor
  · obtain ⟨-, ⟨w, mark, z, hs, -⟩ | ⟨f, hs, -⟩⟩ := parse_eq_ok.mp h
    · exact ⟨.strict w mark z, hs⟩
    · exact ⟨.lenient f, hs⟩
  · intro form hs
    obtain ⟨-, rfl⟩ := (parse_eq_ok_form hs).mp h
    have hprecision := form.precision_timestamp
    refine ⟨by rw [hs, form.point_mem_text], hprecision, ?_⟩
    rw [hprecision, Form.offset]
    -- An offset in numbers is off Universal Time unless the number is zero.
    cases form.fraction <;> cases form.inNumbers <;> simp

/-- A minute before two in the morning of the fourteenth of March 2016. -/
def piMorning : LocalTime where
  clock := ⟨⟨2016, 3, 14⟩, 1, 59⟩
  second := 0
  fraction := none
  exists_clock := by decide
  year_nonneg := by decide
  year_le := by decide
  second_le := by decide

/-- On the Pacific coast it is read with milliseconds, for it is off Universal Time; in a text
without a zone it is read without them. -/
theorem precision_of_parse_pacific :
    (∃ t, parse "2016-03-14T01:59:00-08:00" = .ok t ∧ t.precision = .millis) ∧
      ∃ t, parse "2016-03-14T01:59:00" = .ok t ∧ t.precision ≠ .millis := by
  have hzone : (parse "2016-03-14T01:59:00-08:00").toOption.isSome = true := by decide +kernel
  have hbare : (parse "2016-03-14T01:59:00").toOption.isSome = true := by decide +kernel
  obtain ⟨t, ht⟩ := exists_ok_of_isSome hzone
  obtain ⟨u, hu⟩ := exists_ok_of_isSome hbare
  have hstrict := (precision_of_parse ht).2 (.strict piMorning .upper (.offset .hyphen 8 0))
    (by decide +kernel)
  have hlenient := (precision_of_parse hu).2 (.lenient piMorning.toLenient) (by decide +kernel)
  have hwhole : u.precision ≠ .millis := fun h => absurd (hlenient.2.1.mp h) (by decide)
  exact ⟨⟨t, ht, hstrict.2.1.mpr (.inr rfl)⟩, u, hu, hwhole⟩

/-- An offset of zero in numbers shows milliseconds, though the text has no fraction and is in
Universal Time; the same instant, if it is not given as a text, shows whole seconds. -/
theorem zero_offset_shows_millis :
    ∃ (form : Form) (t : Timestamp), "2016-03-14T01:59:00+00:00".toList = form.text ∧
      parse "2016-03-14T01:59:00+00:00" = .ok t ∧
      ¬(t.precision = .millis ↔ form.fraction.isSome ∨ form.offset ≠ 0) ∧
      t.precision = .millis ∧ (ofInstant t.instant 0).precision = .seconds := by
  have hread : (parse "2016-03-14T01:59:00+00:00").toOption.map
      (fun t => (t.precision, (ofInstant t.instant 0).precision)) = some (.millis, .seconds) := by
    decide +kernel
  obtain ⟨t, ht, hprecision⟩ := Option.map_eq_some_iff.mp hread
  obtain ⟨hmillis, hseconds⟩ := Prod.mk.inj hprecision
  refine ⟨.strict piMorning .upper (.offset .plus 0 0), t, by decide +kernel,
    toOption_eq_some.mp ht, ?_, hmillis, hseconds⟩
  rw [hmillis]
  decide

end Workflow.Timestamp
