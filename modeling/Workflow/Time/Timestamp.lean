import Workflow.Alike
import Workflow.Text.Digits
import Workflow.Time.Calendar

/-!
# Timestamps

An instant of Coordinated Universal Time to the millisecond, together with how much of it was
given: a timestamp either has whole seconds only or carries its milliseconds, even when they are
zero. Leap seconds are seconds of their own, behind the last second of a minute.

Two timestamps are the same instant whatever form they were given in, so comparison looks at the
second and the millisecond only.

## Main definitions

* `Instant`: a nanosecond of Universal Time
* `Timestamp`: an instant to the millisecond
* `Timestamp.ofInstant`: the timestamp of an instant that was shown at some offset
* `Timestamp.eq`, `Timestamp.cmp`, `Timestamp.hash`: the order of instants, and their hash
* `Timestamp.text`: the canonical text
* `Timestamp.checkRange`: whether the year has four digits
-/

namespace Workflow

/-- A nanosecond of Universal Time: a second counted from 1970-01-01, not counting leap seconds,
and the nanosecond in it, or in the leap second behind it. -/
structure Instant where
  second : Int
  leap : Bool
  nanos : Fin 1000000000
  leap_ends_minute : leap = true → second % 60 = 59
  deriving DecidableEq

/-- How much of the time of day a timestamp shows. -/
inductive Precision where
  | seconds
  | millis
  deriving DecidableEq

/-- The name of a precision. -/
def Precision.name : Precision → String
  | seconds => "Seconds"
  | millis => "Millis"

/-- An instant to the millisecond. Without a fraction it shows whole seconds. -/
structure Timestamp where
  second : Int
  leap : Bool
  fraction : Option (Fin 1000)
  leap_ends_minute : leap = true → second % 60 = 59
  deriving DecidableEq

/-- The millisecond in which a second begins. -/
def firstMilli : Fin 1000 := ⟨0, by decide⟩

/-- Why a text is not the text of a timestamp. -/
inductive TimeFault where
  | endOfText
  | wrongCharacter
  | outOfRange
  | trailingText
  deriving DecidableEq

/-- The message of a fault. -/
def TimeFault.message : TimeFault → String
  | endOfText => "premature end of input"
  | wrongCharacter => "input contains invalid characters"
  | outOfRange => "input is out of range"
  | trailingText => "trailing input"

/-- Why a timestamp was refused. -/
inductive TimestampError where
  | unreadable (fault : TimeFault)
  | yearOutside (year : Int)
  deriving DecidableEq

/-- The message of a refusal. -/
def TimestampError.message : TimestampError → String
  | unreadable fault => "not an ISO-8601 timestamp: " ++ fault.message
  | yearOutside year => "year " ++ toString year ++ " is outside 0000-9999"

namespace Timestamp

/-- The timestamp of an instant that was shown `offset` seconds east of Universal Time. Its
milliseconds are shown unless the offset is zero and the instant is a whole second; a leap second
is never taken for a whole one. What is shorter than a millisecond is dropped. -/
def ofInstant (instant : Instant) (offset : Int) : Timestamp where
  second := instant.second
  leap := instant.leap
  fraction :=
    if offset = 0 ∧ instant.nanos.val = 0 ∧ instant.leap = false then none
    else some ⟨instant.nanos / 1000000, by omega⟩
  leap_ends_minute := instant.leap_ends_minute

/-- The timestamp in second `second` of minute `minute`, both counted from zero, where second 60
is the leap second. -/
def ofMinute (minute : Int) (second : Nat) (fraction : Option (Fin 1000)) : Timestamp :=
  if second = 60 then ⟨minute * 60 + 59, true, fraction, fun _ => by omega⟩
  else ⟨minute * 60 + second, false, fraction, nofun⟩

/-- The milliseconds in the second. -/
def millis (t : Timestamp) : Nat :=
  (t.fraction.getD firstMilli).val

/-- Whether milliseconds are shown. -/
def precision (t : Timestamp) : Precision :=
  if t.fraction.isSome then .millis else .seconds

/-- The instant itself. -/
def instant (t : Timestamp) : Instant where
  second := t.second
  leap := t.leap
  nanos := ⟨t.millis * 1000000, by have := (t.fraction.getD firstMilli).isLt; unfold millis; omega⟩
  leap_ends_minute := t.leap_ends_minute

/-- The milliseconds since the beginning of the second, in which a leap second follows on the
second it is attached to. -/
def sinceSecond (t : Timestamp) : Nat :=
  (if t.leap then 1000 else 0) + t.millis

/-- Whether two timestamps are the same instant. -/
def eq (s t : Timestamp) : Bool :=
  s.second == t.second && s.sinceSecond == t.sinceSecond

instance : Alike Timestamp := ⟨eq⟩

/-- The order of two instants. -/
def cmp (s t : Timestamp) : Ordering :=
  (compare s.second t.second).then (compare s.sinceSecond t.sinceSecond)

/-- What a hasher makes of a timestamp: what it makes of the instant, however it was given. -/
def hash {σ : Type} (hasher : Instant → σ → σ) (t : Timestamp) (state : σ) : σ :=
  hasher t.instant state

/-- The day, counted from 1970-01-01, and the second of the day. -/
def daySecond (t : Timestamp) : Int × Nat :=
  (t.second / 86400, (t.second % 86400).toNat)

/-- The year in which the instant lies. -/
def year (t : Timestamp) : Int :=
  (Date.ofDay t.daySecond.1).year

/-- Only years of four digits have a text that reads back. -/
def checkRange (t : Timestamp) : Except TimestampError Unit :=
  if 0 ≤ t.year ∧ t.year ≤ 9999 then .ok () else .error (.yearOutside t.year)

/-- A year: four digits, or a sign and at least four digits for years beyond them. -/
def yearText (year : Int) : List Char :=
  if 0 ≤ year ∧ year ≤ 9999 then Text.padded 4 year.toNat
  else (if year < 0 then '-' else '+') :: Text.padded 4 year.natAbs

/-- A day as year, month and day. -/
def dateText (d : Date) : List Char :=
  yearText d.year ++ '-' :: Text.padded 2 d.month ++ '-' :: Text.padded 2 d.day

/-- The canonical text: in Universal Time, to the second or to the millisecond. -/
def text (t : Timestamp) : String :=
  let (day, second) := t.daySecond
  let shown := second % 60 + if t.leap then 1 else 0
  let fraction := match t.fraction with
    | none => []
    | some millis => '.' :: Text.padded 3 millis
  String.ofList (dateText (Date.ofDay day) ++ 'T' :: Text.padded 2 (second / 3600) ++
    ':' :: Text.padded 2 (second / 60 % 60) ++ ':' :: Text.padded 2 shown ++ fraction ++ ['Z'])

end Timestamp

end Workflow
