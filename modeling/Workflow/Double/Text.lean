import Workflow.Double.Shortest

/-!
# The text of a double

Two written forms, both with the shortest digits that read back. The *plain* form always places
the point and never marks a whole number; the *data* form marks whole numbers by `.0` and turns to
an exponent for very large and very small numbers.

## Main definitions

* `Layout`: the decisions that a written form takes
* `Layout.plain`, `Layout.data`: the two written forms
* `Finite.text`, `Double.text`: the text of a number
-/

namespace Workflow

namespace Double

/-- The decisions of a written form: whether the point is placed for a given exponent of the
first digit, what follows the digits of a whole number, and which of two equally near digits is
taken. -/
structure Layout where
  positional : Int → Bool
  wholeMark : List Char
  tie : Tie

/-- The form for readers: the point is always placed, and whole numbers are not marked. -/
def Layout.plain : Layout := ⟨fun _ => true, [], .up⟩

/-- The form for data: the point is placed for exponents from -5 to 15, and whole numbers end
in `.0`. -/
def Layout.data : Layout := ⟨fun e => -5 ≤ e && e ≤ 15, ['.', '0'], .even⟩

/-- Digits with the point placed after the one of exponent zero. -/
def positionalText (mark digits : List Char) (exponent : Int) : List Char :=
  if exponent < 0 then
    ['0', '.'] ++ List.replicate (-exponent - 1).toNat '0' ++ digits
  else
    let whole := exponent.toNat + 1
    if digits.length ≤ whole then
      digits ++ List.replicate (whole - digits.length) '0' ++ mark
    else digits.take whole ++ '.' :: digits.drop whole

/-- Digits with the point after the first one, and a signed exponent. -/
def scientificText (digits : List Char) (exponent : Int) : List Char :=
  let mantissa := match digits with
    | first :: rest@(_ :: _) => first :: '.' :: rest
    | digits => digits
  let sign := if exponent < 0 then '-' else '+'
  mantissa ++ 'e' :: sign :: Nat.toDigits 10 exponent.natAbs

/-- The text of a nonnegative finite double. -/
def magnitudeText (layout : Layout) (rank : Nat) : List Char :=
  let (digits, exponent) := if rank = 0 then (['0'], 0) else shortest layout.tie rank
  if layout.positional exponent then positionalText layout.wholeMark digits exponent
  else scientificText digits exponent

end Double

/-- The text of a finite double; zero keeps its sign. -/
def Finite.text (layout : Double.Layout) (x : Finite) : List Char :=
  let magnitude := Double.magnitudeText layout x.rank
  if x.negative then '-' :: magnitude else magnitude

/-- The text of a double. -/
def Double.text (layout : Double.Layout) : Double → String
  | finite x => String.ofList (x.text layout)
  | infinite negative => if negative then "-inf" else "inf"
  | undefined => "NaN"

end Workflow
