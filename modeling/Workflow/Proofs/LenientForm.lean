import Workflow.Proofs.StrictForm

/-!
# The lenient form of a timestamp

The texts of the lenient form, given by what they say: numbers with white space in front of them,
a fraction of any length and no zone. The two forms have no text in common, so both readers
together accept exactly the texts of either form, and a text that is of the strict form but for
its zone is read as if it ended in one.

## Main definitions

* `Numeral`, `YearNumeral`: numbers as the lenient form may write them
* `LenientTime`: a time, as the lenient form can write it
* `LenientTime.text`, `LenientTime.timestamp`: its text, and the timestamp it stands for

## Main results

* `readLenient_eq_some`: the texts of the lenient form, and their timestamps
* `parse_eq_ok`: which texts are read as which timestamps
* `parse_without_zone`: a strict text without its zone is read in the same way, and a text of
  neither form is refused as the strict form refuses it
-/

namespace Workflow.Timestamp

open Text (AllDigits Stops allDigits_padded digitsValue digitsValue_padded isBlank length_padded)

/-! ### Numbers -/

/-- A number as the lenient form writes it: white space, and digits behind it. -/
structure Numeral where
  blanks : List Char
  digits : List Char
  allBlank : ∀ c ∈ blanks, isBlank c = true
  digits_ne_nil : digits ≠ []
  allDigits : AllDigits digits

namespace Numeral

def text (n : Numeral) : List Char := n.blanks ++ n.digits

def value (n : Numeral) : Nat := digitsValue n.digits

end Numeral

theorem isBlank_of_isDigit {c : Char} (h : c.isDigit = true) : isBlank c = false := by
  have hc := Text.toNat_of_isDigit h
  simp only [isBlank, Bool.or_eq_false_iff, Bool.and_eq_false_iff, decide_eq_false_iff_not,
    beq_eq_false_iff_ne]
  omega

theorem stops_isBlank_digits {digits : List Char} (hne : digits ≠ []) (hd : AllDigits digits)
    (rest : List Char) : Stops isBlank (digits ++ rest) := by
  obtain ⟨c, digits, rfl⟩ := List.exists_cons_of_ne_nil hne
  exact .cons (isBlank_of_isDigit (hd c List.mem_cons_self)) _

theorem exists_numeral_of_readNumber {width n : Nat} {text rest : List Char}
    (h : readNumber width text = some (n, rest)) :
    ∃ number : Numeral, number.digits.length ≤ width ∧ text = number.text ++ rest ∧
      number.value = n := by
  let behind := text.dropWhile isBlank
  let digits := (behind.takeWhile Char.isDigit).take width
  obtain ⟨hne, rfl, rfl⟩ : digits ≠ [] ∧ digitsValue digits = n ∧
      behind.drop digits.length = rest := by
    simpa [readNumber, behind, digits] using h
  have hprefix : digits <+: behind := (List.take_prefix _ _).trans (List.takeWhile_prefix _)
  have hsplit : digits ++ behind.drop digits.length = behind :=
    (List.prefix_iff_eq_append.mp hprefix)
  refine ⟨⟨text.takeWhile isBlank, digits, fun c hc => List.mem_takeWhile_imp hc, hne,
    fun c hc => List.mem_takeWhile_imp (List.mem_of_mem_take hc)⟩, List.length_take_le _ _, ?_, rfl⟩
  rw [Numeral.text, List.append_assoc, hsplit, List.takeWhile_append_dropWhile]

theorem readNumber_text (number : Numeral) {width : Nat} (hw : number.digits.length ≤ width)
    {rest : List Char} (hs : Stops Char.isDigit rest) :
    readNumber width (number.text ++ rest) = some (number.value, rest) := by
  have hblank := stops_isBlank_digits number.digits_ne_nil number.allDigits rest
  simp only [readNumber, Numeral.text, List.append_assoc,
    Text.dropWhile_append number.allBlank hblank, Text.takeWhile_append number.allDigits hs,
    List.take_of_length_le hw, List.drop_left, Numeral.value]
  simp [number.digits_ne_nil]

/-- A year: a number of at most four digits, or a sign with a number of any length. -/
inductive YearNumeral where
  | short (number : Numeral) (length_le : number.digits.length ≤ 4)
  | signed (negative : Bool) (number : Numeral)

namespace YearNumeral

def text : YearNumeral → List Char
  | short number _ => number.text
  | signed negative number => number.blanks ++ (if negative then '-' else '+') :: number.digits

def value : YearNumeral → Int
  | short number _ => number.value
  | signed negative number => if negative then -number.value else number.value

end YearNumeral

/-- A sign behind white space and digits behind the sign are a year. -/
theorem exists_signed_of_dropWhile {text behind : List Char} (negative : Bool)
    (hbehind : text.dropWhile isBlank = (if negative then '-' else '+') :: behind)
    (hne : behind.takeWhile Char.isDigit ≠ []) :
    ∃ number : Numeral, number.digits = behind.takeWhile Char.isDigit ∧
      text = (YearNumeral.signed negative number).text ++ behind.dropWhile Char.isDigit := by
  refine ⟨⟨text.takeWhile isBlank, behind.takeWhile Char.isDigit,
    fun c hc => List.mem_takeWhile_imp hc, hne, fun c hc => List.mem_takeWhile_imp hc⟩, rfl, ?_⟩
  rw [YearNumeral.text, List.append_assoc, List.cons_append, List.takeWhile_append_dropWhile,
    ← hbehind, List.takeWhile_append_dropWhile]

theorem exists_year_of_readYear {year : Int} {text rest : List Char}
    (h : readYear text = some (year, rest)) :
    ∃ number : YearNumeral, text = number.text ++ rest ∧ number.value = year := by
  unfold readYear at h
  simp only at h
  split at h
  · next behind hbehind =>
    split at h
    · cases h
    · next hne =>
      obtain ⟨rfl, rfl⟩ := Prod.mk.inj (Option.some.inj h)
      obtain ⟨number, hd, ht⟩ := exists_signed_of_dropWhile true hbehind hne
      refine ⟨.signed true number, ht, ?_⟩
      rw [YearNumeral.value, if_pos rfl, Numeral.value, hd, Int.neg_one_mul]
  · next behind hbehind =>
    split at h
    · cases h
    · next hne =>
      obtain ⟨rfl, rfl⟩ := Prod.mk.inj (Option.some.inj h)
      obtain ⟨number, hd, ht⟩ := exists_signed_of_dropWhile false hbehind hne
      refine ⟨.signed false number, ht, ?_⟩
      rw [YearNumeral.value, if_neg Bool.false_ne_true, Numeral.value, hd, Int.one_mul]
  · obtain ⟨⟨n, left⟩, hn, he⟩ := Option.map_eq_some_iff.mp h
    obtain ⟨rfl, rfl⟩ := Prod.mk.inj he
    obtain ⟨number, hl, ht, rfl⟩ := exists_numeral_of_readNumber hn
    -- the blanks in front of a missing sign and those of the number are one run
    have allBlank : ∀ c ∈ text.takeWhile isBlank ++ number.blanks, isBlank c = true := fun c hc =>
      (List.mem_append.mp hc).elim (fun hc => List.mem_takeWhile_imp hc) (number.allBlank c)
    refine ⟨.short { number with blanks := text.takeWhile isBlank ++ number.blanks, allBlank } hl,
      ?_, rfl⟩
    rw [Numeral.text, List.append_assoc] at ht
    rw [YearNumeral.text, Numeral.text, List.append_assoc, List.append_assoc, ← ht,
      List.takeWhile_append_dropWhile]

theorem readYear_text (number : YearNumeral) {rest : List Char} (hs : Stops Char.isDigit rest) :
    readYear (number.text ++ rest) = some (number.value, rest) := by
  cases number with
  | short number hl =>
    have hnumber := readNumber_text number hl hs
    have hblank := stops_isBlank_digits number.digits_ne_nil number.allDigits rest
    obtain ⟨c, digits, hc⟩ := List.exists_cons_of_ne_nil number.digits_ne_nil
    have hdigit : c.isDigit = true := number.allDigits c (by simp [hc])
    have hread : readNumber 4 (number.digits ++ rest) = some (number.value, rest) := by
      let bare : Numeral := { number with blanks := [], allBlank := by simp }
      exact readNumber_text bare hl hs
    simp only [YearNumeral.text, Numeral.text, List.append_assoc, readYear,
      Text.dropWhile_append number.allBlank hblank]
    -- The first digit is not taken for a sign.
    split
    · next h =>
      rw [hc, List.cons_append, List.cons.injEq] at h
      exact absurd (h.1 ▸ hdigit) (by decide)
    · next h =>
      rw [hc, List.cons_append, List.cons.injEq] at h
      exact absurd (h.1 ▸ hdigit) (by decide)
    · rw [hread]
      rfl
  | signed negative number =>
    have hblank : Stops isBlank ((if negative then '-' else '+') :: (number.digits ++ rest)) :=
      .cons (by cases negative <;> decide) _
    simp only [YearNumeral.text, List.append_assoc, List.cons_append, readYear,
      Text.dropWhile_append number.allBlank hblank]
    cases negative with
    | false =>
      simp only [Bool.false_eq_true, if_false, Text.takeWhile_append number.allDigits hs,
        Text.dropWhile_append number.allDigits hs]
      split
      · next h => exact absurd h number.digits_ne_nil
      · simp [YearNumeral.value, Numeral.value]
    | true =>
      simp only [if_true, Text.takeWhile_append number.allDigits hs,
        Text.dropWhile_append number.allDigits hs]
      split
      · next h => exact absurd h number.digits_ne_nil
      · simp [YearNumeral.value, Numeral.value]

/-! ### The whole form -/

/-- A number of at most two digits. -/
structure ShortNumeral extends Numeral where
  length_le : digits.length ≤ 2

/-- A time, as the lenient form can write it. -/
structure LenientTime where
  year : YearNumeral
  month : ShortNumeral
  day : ShortNumeral
  hour : ShortNumeral
  minute : ShortNumeral
  second : ShortNumeral
  fraction : Option Fraction
  year_ge : -262143 ≤ year.value
  year_le : year.value ≤ 262142
  exists_date : Date.Exists ⟨year.value, month.value, day.value⟩
  hour_le : hour.value ≤ 23
  minute_le : minute.value ≤ 59
  second_le : second.value ≤ 60

namespace LenientTime

/-- The text of a time without a zone. -/
def text (f : LenientTime) : List Char :=
  f.year.text ++ '-' :: f.month.text ++ '-' :: f.day.text ++ 'T' :: f.hour.text ++
    ':' :: f.minute.text ++ ':' :: f.second.text ++ Fraction.text f.fraction

/-- The time is Universal Time. -/
def clock (f : LenientTime) : Clock :=
  ⟨⟨f.year.value, f.month.value, f.day.value⟩, f.hour.value, f.minute.value⟩

/-- The timestamp of a time without a zone. -/
def timestamp (f : LenientTime) : Timestamp :=
  ofMinute f.clock.number f.second.value (f.fraction.map Fraction.millis)

end LenientTime

theorem toOption_eq_some {ε α : Type} {x : Except ε α} {a : α} :
    x.toOption = some a ↔ x = .ok a := by
  cases x <;> simp [Except.toOption]

theorem guard_eq_some {p : Prop} [Decidable p] {u : Unit} :
    (guard p : Option Unit) = some u ↔ p := by
  by_cases h : p <;> simp [guard, h]

theorem skipMark_eq_some {mark : Char} {text rest : List Char} :
    skipMark mark text = some rest ↔ text = mark :: rest := by
  cases text with
  | nil => simp [skipMark]
  | cons c text =>
    simp only [skipMark, List.cons.injEq]
    split <;> simp_all

theorem Fraction.stops_text (f : Option Fraction) : Stops Char.isDigit (Fraction.text f) := by
  cases f with
  | none => exact fun c hc => by cases hc
  | some f => exact .cons rfl _

theorem readLenient_text (f : LenientTime) : readLenient f.text = some f.timestamp := by
  have hyear (rest : List Char) := readYear_text f.year (.cons (c := '-') rfl rest)
  have hnumber (n : ShortNumeral) {c : Char} (hc : c.isDigit = false) (rest : List Char) :=
    readNumber_text n.toNumeral n.length_le (.cons hc rest)
  have hsecond := readNumber_text f.second.toNumeral f.second.length_le
    (Fraction.stops_text f.fraction)
  have hnil : Stops goesOn [] := fun c hc => by cases hc
  have hfraction := readFraction_append f.fraction hnil
  rw [List.append_nil] at hfraction
  simp only [LenientTime.text, List.append_assoc, List.cons_append]
  -- fields and marks by turns, and at the end the checks that a `LenientTime` carries
  unfold readLenient
  refine Option.bind_eq_some_iff.mpr ⟨_, hyear _, ?_⟩
  refine Option.bind_eq_some_iff.mpr ⟨_, skipMark_eq_some.mpr rfl, ?_⟩
  refine Option.bind_eq_some_iff.mpr ⟨_, hnumber f.month (c := '-') rfl _, ?_⟩
  refine Option.bind_eq_some_iff.mpr ⟨_, skipMark_eq_some.mpr rfl, ?_⟩
  refine Option.bind_eq_some_iff.mpr ⟨_, hnumber f.day (c := 'T') rfl _, ?_⟩
  refine Option.bind_eq_some_iff.mpr ⟨_, skipMark_eq_some.mpr rfl, ?_⟩
  refine Option.bind_eq_some_iff.mpr ⟨_, hnumber f.hour (c := ':') rfl _, ?_⟩
  refine Option.bind_eq_some_iff.mpr ⟨_, skipMark_eq_some.mpr rfl, ?_⟩
  refine Option.bind_eq_some_iff.mpr ⟨_, hnumber f.minute (c := ':') rfl _, ?_⟩
  refine Option.bind_eq_some_iff.mpr ⟨_, skipMark_eq_some.mpr rfl, ?_⟩
  refine Option.bind_eq_some_iff.mpr ⟨_, hsecond, ?_⟩
  refine Option.bind_eq_some_iff.mpr ⟨_, toOption_eq_some.mpr hfraction, ?_⟩
  refine Option.bind_eq_some_iff.mpr ⟨(), guard_eq_some.mpr rfl, ?_⟩
  refine Option.bind_eq_some_iff.mpr
    ⟨(), guard_eq_some.mpr ⟨f.year_ge, f.year_le, f.exists_date⟩, ?_⟩
  refine Option.bind_eq_some_iff.mpr
    ⟨(), guard_eq_some.mpr ⟨f.hour_le, f.minute_le, f.second_le⟩, rfl⟩

/-- A text of the lenient form is read part by part. -/
theorem exists_lenient_of_readLenient {text : List Char} {t : Timestamp}
    (h : readLenient text = some t) : ∃ f : LenientTime, text = f.text ∧ t = f.timestamp := by
  unfold readLenient at h
  obtain ⟨⟨_, _⟩, hyear, h⟩ := Option.bind_eq_some_iff.mp h
  obtain ⟨_, hmark₁, h⟩ := Option.bind_eq_some_iff.mp h
  obtain ⟨⟨_, _⟩, hmonth, h⟩ := Option.bind_eq_some_iff.mp h
  obtain ⟨_, hmark₂, h⟩ := Option.bind_eq_some_iff.mp h
  obtain ⟨⟨_, _⟩, hday, h⟩ := Option.bind_eq_some_iff.mp h
  obtain ⟨_, hmark₃, h⟩ := Option.bind_eq_some_iff.mp h
  obtain ⟨⟨_, _⟩, hhour, h⟩ := Option.bind_eq_some_iff.mp h
  obtain ⟨_, hmark₄, h⟩ := Option.bind_eq_some_iff.mp h
  obtain ⟨⟨_, _⟩, hminute, h⟩ := Option.bind_eq_some_iff.mp h
  obtain ⟨_, hmark₅, h⟩ := Option.bind_eq_some_iff.mp h
  obtain ⟨⟨_, _⟩, hsecond, h⟩ := Option.bind_eq_some_iff.mp h
  obtain ⟨⟨_, _⟩, hfraction, h⟩ := Option.bind_eq_some_iff.mp h
  obtain ⟨_, hend, h⟩ := Option.bind_eq_some_iff.mp h
  obtain ⟨_, hdate, h⟩ := Option.bind_eq_some_iff.mp h
  obtain ⟨_, htime, h⟩ := Option.bind_eq_some_iff.mp h
  have ht := Option.some.inj h
  -- the text is what the readers took from it, one after the other
  obtain rfl := skipMark_eq_some.mp hmark₁
  obtain rfl := skipMark_eq_some.mp hmark₂
  obtain rfl := skipMark_eq_some.mp hmark₃
  obtain rfl := skipMark_eq_some.mp hmark₄
  obtain rfl := skipMark_eq_some.mp hmark₅
  obtain rfl := List.isEmpty_iff.mp (guard_eq_some.mp hend)
  obtain ⟨year, rfl, rfl⟩ := exists_year_of_readYear hyear
  obtain ⟨month, monthLength, rfl, rfl⟩ := exists_numeral_of_readNumber hmonth
  obtain ⟨day, dayLength, rfl, rfl⟩ := exists_numeral_of_readNumber hday
  obtain ⟨hour, hourLength, rfl, rfl⟩ := exists_numeral_of_readNumber hhour
  obtain ⟨minute, minuteLength, rfl, rfl⟩ := exists_numeral_of_readNumber hminute
  obtain ⟨second, secondLength, rfl, rfl⟩ := exists_numeral_of_readNumber hsecond
  obtain ⟨fraction, rfl, rfl⟩ := exists_fraction_of_readFraction (toOption_eq_some.mp hfraction)
  obtain ⟨yearFrom, yearTo, existsDate⟩ := guard_eq_some.mp hdate
  obtain ⟨hourTo, minuteTo, secondTo⟩ := guard_eq_some.mp htime
  let f : LenientTime :=
    { year, fraction
      month := ⟨month, monthLength⟩
      day := ⟨day, dayLength⟩
      hour := ⟨hour, hourLength⟩
      minute := ⟨minute, minuteLength⟩
      second := ⟨second, secondLength⟩
      year_ge := yearFrom
      year_le := yearTo
      exists_date := existsDate
      hour_le := hourTo
      minute_le := minuteTo
      second_le := secondTo }
  refine ⟨f, ?_, ht.symm⟩
  simp [f, LenientTime.text]

/-- The texts of the lenient form, and the timestamps they stand for. -/
theorem readLenient_eq_some {text : List Char} {t : Timestamp} :
    readLenient text = some t ↔ ∃ f : LenientTime, text = f.text ∧ t = f.timestamp := by
  constructor
  · exact exists_lenient_of_readLenient
  · rintro ⟨f, rfl, rfl⟩
    exact readLenient_text f

/-! ### The two forms have no text in common -/

/-- A kind of character that stands in no number, in front of none, and before no fraction. -/
structure Apart (p : Char → Bool) : Prop where
  digit : ∀ c : Char, c.isDigit = true → p c = false
  blank : ∀ c : Char, isBlank c = true → p c = false
  hyphen : p '-' = false
  plus : p '+' = false
  point : p '.' = false

namespace Apart

variable {p : Char → Bool} (hp : Apart p)

include hp

theorem countP_digits {digits : List Char} (h : AllDigits digits) : digits.countP p = 0 :=
  List.countP_eq_zero.mpr fun c hc => by simp [hp.digit c (h c hc)]

theorem countP_padded (width n : Nat) : (Text.padded width n).countP p = 0 :=
  hp.countP_digits (allDigits_padded width n)

theorem countP_numeral (n : Numeral) : n.text.countP p = 0 := by
  have hblanks : n.blanks.countP p = 0 :=
    List.countP_eq_zero.mpr fun c hc => by simp [hp.blank c (n.allBlank c hc)]
  rw [Numeral.text, List.countP_append, hblanks, hp.countP_digits n.allDigits]

theorem countP_year (n : YearNumeral) : n.text.countP p = 0 := by
  cases n with
  | short n h => exact hp.countP_numeral n
  | signed negative n =>
    have hsign : p (if negative then '-' else '+') = false := by
      cases negative
      · exact hp.plus
      · exact hp.hyphen
    have hnumber := hp.countP_numeral n
    rw [Numeral.text, List.countP_append] at hnumber
    simp only [YearNumeral.text, List.countP_append, List.countP_cons, hsign, Bool.false_eq_true,
      if_false]
    omega

theorem countP_fraction (f : Option Fraction) : (Fraction.text f).countP p = 0 := by
  cases f with
  | none => rfl
  | some f => simp [Fraction.text, hp.point, hp.countP_digits f.allDigits]

theorem countP_lenient (f : LenientTime) : f.text.countP p = ['T', ':', ':'].countP p := by
  simp only [LenientTime.text, List.countP_append, List.countP_cons, hp.countP_year,
    hp.countP_numeral, hp.countP_fraction, hp.hyphen, List.countP_nil, Bool.false_eq_true, if_false]
  omega

theorem countP_strict (w : LocalTime) (mark : Mark) :
    (w.text mark).countP p = [mark.char, ':', ':'].countP p := by
  simp only [LocalTime.text, dateText, w.yearText_eq, List.countP_append, List.countP_cons,
    hp.countP_padded, hp.countP_fraction, hp.hyphen, List.countP_nil, Bool.false_eq_true, if_false]
  omega

theorem countP_offset (sign : Sign) (hours : Fin 24) (minutes : Fin 60) :
    (Zone.offset sign hours minutes).text.countP p = [sign.char, ':'].countP p := by
  simp only [Zone.text, List.countP_append, List.countP_cons, hp.countP_padded, List.countP_nil]
  omega

end Apart

theorem apart_contains {marks : List Char}
    (h : ∀ m ∈ marks, m.isDigit = false ∧ isBlank m = false ∧ m ∉ ['-', '+', '.']) :
    Apart marks.contains := by
  have hno (c : Char) (hc : c ∉ marks) : marks.contains c = false := by simpa using hc
  exact {
    digit c hc := hno c fun hm => Bool.false_ne_true ((h c hm).1.symm.trans hc)
    blank c hc := hno c fun hm => Bool.false_ne_true ((h c hm).2.1.symm.trans hc)
    hyphen := hno '-' fun hm => (h '-' hm).2.2 (by decide)
    plus := hno '+' fun hm => (h '+' hm).2.2 (by decide)
    point := hno '.' fun hm => (h '.' hm).2.2 (by decide) }

/-- The characters that tell the forms apart: a text of the lenient form has two of them, and a
text of the strict form one more, in its zone. -/
def isTimeMark : Char → Bool := [':', 'Z', 'z'].contains

theorem apart_isTimeMark : Apart isTimeMark :=
  apart_contains (by simp [isBlank])

theorem Zone.countP_isTimeMark (z : Zone) : z.text.countP isTimeMark = 1 := by
  cases z with
  | letter small => cases small <;> rfl
  | offset sign hours minutes =>
    rw [apart_isTimeMark.countP_offset]
    cases sign <;> rfl

theorem strict_ne_lenient (w : LocalTime) (mark : Mark) (z : Zone) (f : LenientTime) :
    w.text mark ++ z.text ≠ f.text := by
  intro h
  -- Both texts have two colons in the time, and one of them has a third mark in the zone.
  have hcount := congrArg (List.countP isTimeMark) h
  rw [List.countP_append, apart_isTimeMark.countP_strict, z.countP_isTimeMark,
    apart_isTimeMark.countP_lenient] at hcount
  cases mark <;> exact absurd hcount (by decide)

/-! ### Both forms -/

section

variable {s : String} {t u : Timestamp} {fault : TimeFault}

theorem parse_of_readStrict (h : readStrict s.toList = .ok u) :
    parse s = u.checkRange.map fun _ => u := by
  simp only [parse, h, pure_bind]
  generalize u.checkRange = range
  cases range <;> rfl

theorem parse_of_readLenient (h : readStrict s.toList = .error fault)
    (hl : readLenient s.toList = some u) : parse s = u.checkRange.map fun _ => u := by
  simp only [parse, h, hl, pure_bind]
  generalize u.checkRange = range
  cases range <;> rfl

theorem parse_of_neither (h : readStrict s.toList = .error fault)
    (hl : readLenient s.toList = none) : parse s = .error (.unreadable fault) := by
  simp only [parse, h, hl]
  rfl

/-- A text of the lenient form is refused by the reader of the strict one. -/
theorem exists_fault_of_lenient {f : LenientTime} (h : s.toList = f.text) :
    ∃ fault, readStrict s.toList = .error fault := by
  cases hs : readStrict s.toList with
  | error fault => exact ⟨fault, rfl⟩
  | ok t =>
    obtain ⟨w, mark, z, ht, -⟩ := readStrict_eq_ok.mp hs
    exact absurd (ht.symm.trans h) (strict_ne_lenient w mark z f)

/-- Which texts are read as which timestamps. -/
theorem parse_eq_ok :
    parse s = .ok t ↔ t.checkRange = .ok () ∧
      ((∃ (w : LocalTime) (mark : Mark) (z : Zone), s.toList = w.text mark ++ z.text ∧
          t = w.timestamp z) ∨
        ∃ f : LenientTime, s.toList = f.text ∧ t = f.timestamp) := by
  rw [← readStrict_eq_ok, ← readLenient_eq_some]
  cases hs : readStrict s.toList with
  | ok u =>
    -- The lenient reader is not asked, but it would not have read the text either.
    have hl : readLenient s.toList ≠ some t := fun hl => by
      obtain ⟨f, hf, -⟩ := readLenient_eq_some.mp hl
      obtain ⟨fault, hfault⟩ := exists_fault_of_lenient hf
      cases hs.symm.trans hfault
    simp only [parse_of_readStrict hs, map_eq_ok, exists_unit, Except.ok.injEq, hl, or_false]
    constructor <;> rintro ⟨h, rfl⟩ <;> exact ⟨h, rfl⟩
  | error fault =>
    cases hl : readLenient s.toList with
    | none => simp [parse_of_neither hs hl]
    | some u =>
      simp only [parse_of_readLenient hs hl, map_eq_ok, exists_unit, Option.some.injEq,
        reduceCtorEq, false_or]
      constructor <;> rintro ⟨h, rfl⟩ <;> exact ⟨h, rfl⟩

end

/-! ### A strict text without its zone -/

/-- A number without white space, in as many digits as are asked for. -/
def Numeral.padded (width n : Nat) : Numeral where
  blanks := []
  digits := Text.padded width n
  allBlank := by simp
  digits_ne_nil := by simp [Text.padded, Nat.toDigits_ne_nil]
  allDigits := allDigits_padded width n

@[simp]
theorem Numeral.value_padded (width n : Nat) : (Numeral.padded width n).value = n :=
  digitsValue_padded width n

/-- A number of two digits. -/
def ShortNumeral.padded (n : Nat) (h : n < 10 ^ 2) : ShortNumeral where
  toNumeral := Numeral.padded 2 n
  length_le := (length_padded (by omega) h).le

@[simp]
theorem ShortNumeral.value_padded (n : Nat) (h : n < 10 ^ 2) :
    (ShortNumeral.padded n h).value = n :=
  Numeral.value_padded 2 n

section

variable (w : LocalTime)

/-- The year of a local time, in four digits. -/
def LocalTime.yearNumeral : YearNumeral :=
  .short (Numeral.padded 4 w.clock.date.year.toNat) (length_padded (by omega) w.year_lt).le

@[simp]
theorem LocalTime.value_yearNumeral : w.yearNumeral.value = w.clock.date.year := by
  change ((Numeral.padded 4 w.clock.date.year.toNat).value : Int) = _
  rw [Numeral.value_padded, Int.toNat_of_nonneg w.year_nonneg]

/-- A local time without a zone, which the lenient form takes for Universal Time. -/
def LocalTime.toLenient : LenientTime where
  year := w.yearNumeral
  month := .padded w.clock.date.month w.month_lt
  day := .padded w.clock.date.day w.day_lt
  hour := .padded w.clock.hour w.hour_lt
  minute := .padded w.clock.minute w.minute_lt
  second := .padded w.second w.second_lt
  fraction := w.fraction
  year_ge := by
    have := w.year_nonneg
    rw [w.value_yearNumeral]
    omega
  year_le := by
    have := w.year_le
    rw [w.value_yearNumeral]
    omega
  exists_date := by simpa using w.exists_clock.1
  hour_le := by simpa using Nat.le_of_lt_succ w.exists_clock.2.1
  minute_le := by simpa using Nat.le_of_lt_succ w.exists_clock.2.2
  second_le := by simpa using w.second_le

theorem LocalTime.text_toLenient : w.toLenient.text = w.text .upper := by
  simp [LenientTime.text, toLenient, LocalTime.text, dateText, w.yearText_eq, YearNumeral.text,
    yearNumeral, Numeral.text, ShortNumeral.padded, Numeral.padded, Mark.char]

theorem LocalTime.timestamp_toLenient (small : Bool) :
    w.toLenient.timestamp = w.timestamp (.letter small) := by
  have hclock : w.toLenient.clock = w.clock := by
    simp [LenientTime.clock, toLenient]
  have hsecond : w.toLenient.second.value = w.second := by simp [toLenient]
  have hfraction : w.toLenient.fraction = w.fraction := rfl
  rw [LenientTime.timestamp, hclock, hsecond, hfraction, w.timestamp_letter]

end

theorem apart_zulu : Apart ['Z'].contains :=
  apart_contains (by simp [isBlank])

/-- Only a zone that is the letter Z puts this letter at the end of a strict text. -/
theorem eq_of_append_zulu {text : List Char} {w : LocalTime} {mark : Mark} {z : Zone}
    (h : text ++ ['Z'] = w.text mark ++ z.text) : z = .letter false ∧ text = w.text mark := by
  -- The letter is nowhere before the zone, so it has to be in the zone.
  have hcount := congrArg (List.countP ['Z'].contains) h
  rw [List.countP_append, List.countP_append, apart_zulu.countP_strict,
    show [mark.char, ':', ':'].countP ['Z'].contains = 0 by cases mark <;> rfl] at hcount
  have hz : z = .letter false := by
    cases z with
    | letter small =>
      cases small with
      | false => rfl
      | true => exact absurd hcount (by simp [Zone.text])
    | offset sign hours minutes =>
      rw [apart_zulu.countP_offset,
        show [sign.char, ':'].countP ['Z'].contains = 0 by cases sign <;> rfl] at hcount
      exact absurd hcount (by simp)
  subst hz
  exact ⟨rfl, List.append_cancel_right h⟩

/-- The bytes at which a character begins are its own. -/
theorem toUTF8_getElem? {s : String} {before after : List Char} {c : Char}
    (h : s.toList = before ++ c :: after) :
    s.toUTF8.data[Text.byteLength before]? = (String.utf8EncodeChar c)[0]? := by
  have hlength : (before.flatMap String.utf8EncodeChar).length = Text.byteLength before := by
    clear h
    induction before with
    | nil => rfl
    | cons d before ih =>
      rw [List.flatMap_cons, List.length_append, String.length_utf8EncodeChar, ih, Text.byteLength]
  have hbytes : s.toUTF8.data = (s.toList.flatMap String.utf8EncodeChar).toArray := by
    rw [← String.ofList_toList (s := s), String.toUTF8_eq_toByteArray, String.toByteArray_ofList,
      List.utf8Encode, List.data_toByteArray, String.toList_ofList]
  have hpos : 0 < (String.utf8EncodeChar c).length := by
    rw [String.length_utf8EncodeChar]
    exact c.utf8Size_pos
  rw [hbytes, List.getElem?_toArray, h, List.flatMap_append, ← hlength,
    List.getElem?_append_right (Nat.le_refl _), Nat.sub_self, List.flatMap_cons,
    List.getElem?_append_left hpos]

/-- The eleventh byte of a strict text stands between its date and its time. -/
theorem LocalTime.eleventh_byte {s : String} {w : LocalTime} {mark : Mark}
    (h : s.toList = w.text mark) : s.toUTF8.data[10]? = (String.utf8EncodeChar mark.char)[0]? := by
  rw [LocalTime.text] at h
  simp only [List.append_assoc, List.cons_append] at h
  have hbyte := toUTF8_getElem? h
  rwa [w.byteLength_dateText] at hbyte

/-- A text whose eleventh byte is an upper-case T, and which is read when the letter Z follows it,
is read without the letter in the same way: the strict form with its zone and the lenient form
without one agree. A text of neither form is refused with what is wrong with it in the strict
form. -/
theorem parse_without_zone :
    (∀ (s : String) (t : Timestamp), s.toUTF8.data[10]? = some 0x54 →
        parse (s ++ "Z") = .ok t → parse s = .ok t) ∧
      ∀ s : String, (∀ (w : LocalTime) (mark : Mark) (z : Zone), s.toList ≠ w.text mark ++ z.text) →
        (∀ f : LenientTime, s.toList ≠ f.text) →
        ∃ fault, readStrict s.toList = .error fault ∧ parse s = .error (.unreadable fault) := by
  constructor
  · intro s t hT h
    obtain ⟨hrange, ⟨w, mark, z, hs, rfl⟩ | ⟨f, hs, -⟩⟩ := parse_eq_ok.mp h
    · rw [String.toList_append] at hs
      obtain ⟨rfl, htext⟩ : z = .letter false ∧ s.toList = w.text mark := eq_of_append_zulu hs
      have hmark : mark = .upper := by
        rw [w.eleventh_byte htext] at hT
        cases mark with
        | upper => rfl
        | lower => exact absurd hT (by decide)
        | space => exact absurd hT (by decide)
      subst hmark
      refine parse_eq_ok.mpr ⟨hrange, .inr ⟨w.toLenient, ?_, (w.timestamp_toLenient false).symm⟩⟩
      rw [w.text_toLenient, htext]
    · -- No text of the lenient form ends with the letter Z.
      have hcount := congrArg (List.countP ['Z'].contains) hs
      rw [String.toList_append, List.countP_append, apart_zulu.countP_lenient] at hcount
      exact absurd hcount (by simp)
  · intro s hstrict hlenient
    cases hs : readStrict s.toList with
    | ok t =>
      obtain ⟨w, mark, z, ht, -⟩ := readStrict_eq_ok.mp hs
      exact absurd ht (hstrict w mark z)
    | error fault =>
      cases hl : readLenient s.toList with
      | some t =>
        obtain ⟨f, hf, -⟩ := readLenient_eq_some.mp hl
        exact absurd hf (hlenient f)
      | none => exact ⟨fault, rfl, parse_of_neither hs hl⟩

/-- Half a second into a leap second is read without a zone as with one, and a day that 2015 does
not have is refused as the strict form refuses it. -/
theorem parse_without_zone_leap :
    (∃ t, parse "2016-12-31T23:59:60.5Z" = .ok t ∧ parse "2016-12-31T23:59:60.5" = .ok t) ∧
      ∃ fault, readStrict "2015-02-29T00:00:00Z".toList = .error fault ∧
        parse "2015-02-29T00:00:00Z" = .error (.unreadable fault) := by
  constructor
  · have hread : (parse "2016-12-31T23:59:60.5Z").toOption.isSome = true := by decide +kernel
    obtain ⟨t, ht⟩ := exists_ok_of_isSome hread
    exact ⟨t, ht, parse_without_zone.1 "2016-12-31T23:59:60.5" t (by decide +kernel) ht⟩
  · refine parse_without_zone.2 _ (fun w mark z hs => ?_) (fun f hs => ?_)
    · have hfault : (readStrict "2015-02-29T00:00:00Z".toList).toOption = none := by decide +kernel
      rw [hs, readStrict_text] at hfault
      cases hfault
    · have hfault : readLenient "2015-02-29T00:00:00Z".toList = none := by decide +kernel
      rw [readLenient_eq_some.mpr ⟨f, hs, rfl⟩] at hfault
      cases hfault

end Workflow.Timestamp
