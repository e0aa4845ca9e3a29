import Workflow.Text.Blank
import Workflow.Time.Timestamp

/-!
# Reading timestamps

A text is read in the strict form first: every field has its full width and an offset from
Universal Time is given. A text that is not of that form is read in the lenient form, which has
no offset and allows short fields and white space before them. What is wrong with a text of
neither form is what was wrong in the strict one.

## Main definitions

* `readStrict`, `readLenient`: the two forms
* `Timestamp.parse`: the timestamp of a text
-/

namespace Workflow

namespace Timestamp

/-! ### The strict form -/

/-- Reads `count` digits. -/
def readDigits : (count : Nat) → (value : Nat) → List Char → Except TimeFault (Nat × List Char)
  | 0, value, text => .ok (value, text)
  | _ + 1, _, [] => .error .endOfText
  | count + 1, value, c :: text =>
    if c.isDigit then readDigits count (10 * value + (c.toNat - '0'.toNat)) text
    else .error .wrongCharacter

/-- Reads one of some characters. -/
def readMark (marks : List Char) : List Char → Except TimeFault (List Char)
  | [] => .error .endOfText
  | c :: text => if c ∈ marks then .ok text else .error .wrongCharacter

/-- The milliseconds that begin the digits of a fraction. -/
def fractionMillis (digits : List Char) : Fin 1000 :=
  ⟨Text.digitsValue ((digits ++ ['0', '0', '0']).take 3) % 1000, Nat.mod_lt _ (by decide)⟩

/-- Reads a fraction, if there is one. -/
def readFraction : List Char → Except TimeFault (Option (Fin 1000) × List Char)
  | '.' :: text =>
    match text.takeWhile Char.isDigit with
    | [] => .error (if text.isEmpty then .endOfText else .wrongCharacter)
    | digits => .ok (some (fractionMillis digits), text.dropWhile Char.isDigit)
  | text => .ok (none, text)

/-- Reads two digits behind which the text may end. Fewer than two bytes of text count as its
end, whatever they are. -/
def readPair (text : List Char) : Except TimeFault (Nat × Nat × List Char) :=
  match text with
  | a :: b :: text =>
    if a.isDigit && b.isDigit then .ok (a.toNat - '0'.toNat, b.toNat - '0'.toNat, text)
    else .error .wrongCharacter
  | text => .error (if Text.byteLength text < 2 then .endOfText else .wrongCharacter)

/-- Reads the hours and minutes of an offset, and gives it in minutes. -/
def readOffsetMinutes (text : List Char) : Except TimeFault (Nat × List Char) := do
  let (h₁, h₂, text) ← readPair text
  let text ← readMark [':'] text
  let (m₁, m₂, text) ← readPair text
  if 6 ≤ m₁ then .error .outOfRange
  else .ok ((10 * h₁ + h₂) * 60 + (10 * m₁ + m₂), text)

/-- Reads an offset from Universal Time: the minutes to the east, if it is given in numbers. -/
def readOffset : List Char → Except TimeFault (Option Int × List Char)
  | [] => .error .endOfText
  | c :: text =>
    if c = 'Z' ∨ c = 'z' then .ok (none, text)
    else if c = '+' then do
      let (minutes, text) ← readOffsetMinutes text
      .ok (some minutes, text)
    else if c = '-' ∨ c = '\u2212' then do
      let (minutes, text) ← readOffsetMinutes text
      .ok (some (-minutes), text)
    else .error .wrongCharacter

/-- Reads the strict form. A fraction, or an offset in numbers, shows milliseconds. -/
def readStrict (text : List Char) : Except TimeFault Timestamp := do
  if Text.byteLength text < 19 then throw .endOfText
  let (year, text) ← readDigits 4 0 text
  let text ← readMark ['-'] text
  let (month, text) ← readDigits 2 0 text
  let text ← readMark ['-'] text
  let (day, text) ← readDigits 2 0 text
  let date : Date := ⟨year, month, day⟩
  unless date.Exists do throw .outOfRange
  let text ← readMark ['T', 't', ' '] text
  let (hour, text) ← readDigits 2 0 text
  let text ← readMark [':'] text
  let (minute, text) ← readDigits 2 0 text
  let text ← readMark [':'] text
  let (second, text) ← readDigits 2 0 text
  let (fraction, text) ← readFraction text
  if 23 < hour ∨ 59 < minute ∨ 60 < second then throw .outOfRange
  let (offset, text) ← readOffset text
  unless text.isEmpty do throw .trailingText
  let shift := offset.getD 0
  if 1440 ≤ shift.natAbs then throw .outOfRange
  let shown := if fraction.isSome ∨ offset.isSome then some (fraction.getD firstMilli) else none
  return ofMinute (date.toDay * 1440 + hour * 60 + minute - shift) second shown

/-! ### The lenient form -/

/-- Reads a number of at most `width` digits, behind white space. -/
def readNumber (width : Nat) (text : List Char) : Option (Nat × List Char) :=
  let text := text.dropWhile Text.isBlank
  let digits := (text.takeWhile Char.isDigit).take width
  if digits.isEmpty then none else some (Text.digitsValue digits, text.drop digits.length)

/-- Reads a year behind white space: up to four digits, or a sign and any number of digits. -/
def readYear (text : List Char) : Option (Int × List Char) :=
  let text := text.dropWhile Text.isBlank
  let signed (sign : Int) (text : List Char) : Option (Int × List Char) :=
    match text.takeWhile Char.isDigit with
    | [] => none
    | digits => some (sign * Text.digitsValue digits, text.dropWhile Char.isDigit)
  match text with
  | '-' :: text => signed (-1) text
  | '+' :: text => signed 1 text
  | text => (readNumber 4 text).map fun (year, text) => (year, text)

/-- Reads a character that must be there. -/
def skipMark (mark : Char) : List Char → Option (List Char)
  | c :: text => if c = mark then some text else none
  | [] => none

/-- Reads the lenient form, in which the time is Universal Time. -/
def readLenient (text : List Char) : Option Timestamp := do
  let (year, text) ← readYear text
  let (month, text) ← readNumber 2 (← skipMark '-' text)
  let (day, text) ← readNumber 2 (← skipMark '-' text)
  let (hour, text) ← readNumber 2 (← skipMark 'T' text)
  let (minute, text) ← readNumber 2 (← skipMark ':' text)
  let (second, text) ← readNumber 2 (← skipMark ':' text)
  let (fraction, text) ← (readFraction text).toOption
  guard text.isEmpty
  let date : Date := ⟨year, month, day⟩
  guard (-262143 ≤ year ∧ year ≤ 262142 ∧ date.Exists)
  guard (hour ≤ 23 ∧ minute ≤ 59 ∧ second ≤ 60)
  return ofMinute (date.toDay * 1440 + hour * 60 + minute) second fraction

/-! ### Both forms -/

/-- The timestamp of a text. -/
def parse (text : String) : Except TimestampError Timestamp := do
  let timestamp ← match readStrict text.toList with
    | .ok timestamp => pure timestamp
    | .error fault =>
      match readLenient text.toList with
      | some timestamp => pure timestamp
      | none => throw (.unreadable fault)
  timestamp.checkRange
  return timestamp

end Timestamp

end Workflow
