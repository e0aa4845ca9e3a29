import Workflow.Double.Basic

/-!
# The shortest digits of a double

The decimal number with the fewest digits that lies so near to a double that it rounds to it, and
of those the one nearest to the double. Numbers halfway to a neighbouring double round to the one
of even rank, so the ends of the interval belong to it exactly for an even rank.

All comparisons are of natural numbers: magnitudes are counted in halves of the least positive
double, in which the ends of every interval are whole.

## Main definitions

* `Tie`: which of two equally near decimal numbers is taken
* `onGrid`: the number of a decimal grid that stands for a rank, if one lies in its interval
* `shortest`: the shortest digits of a rank, with the exponent of the first
-/

namespace Workflow.Double

/-- Which of two equally near numbers is taken: the one above, or the one whose last digit is
even. -/
inductive Tie where
  | up
  | even
  deriving DecidableEq

/-- The decimal exponent of the first digit of a positive rank: the largest `e` for which
`10 ^ e` is at most its magnitude. The factor `10 ^ 400` makes every positive magnitude exceed
one, which changes the count of its digits by 400. -/
def leadingExponent (rank : Nat) : Int :=
  let enlarged := (Format.double.scaled rank * Nat.pow 10 400) >>> Format.double.unitExponent
  ((Nat.toDigits 10 enlarged).length : Int) - 401

/-- The multiple of `10 ^ exponent` that is nearest to a positive rank among its two neighbours
on that grid, if it rounds to the rank; otherwise the other one, if that does. -/
def onGrid (tie : Tie) (rank : Nat) (exponent : Int) : Option Nat :=
  let half := 1 <<< (Format.double.unitExponent + 1)
  let step := if 0 ≤ exponent then Nat.pow 10 exponent.toNat * half else half
  let factor := if 0 ≤ exponent then 1 else Nat.pow 10 (-exponent).toNat
  let here := Format.double.scaled rank
  let value := 2 * here * factor
  let lower := (Format.double.scaled (rank - 1) + here) * factor
  let upper := (here + Format.double.scaled (rank + 1)) * factor
  let closed := rank % 2 = 0
  let within (n : Nat) : Bool :=
    if closed then lower ≤ n * step && n * step ≤ upper
    else lower < n * step && n * step < upper
  let below := value / step
  let above := below + 1
  let toBelow := value - below * step
  let toAbove := above * step - value
  let preferBelow :=
    toBelow < toAbove || (toBelow == toAbove && tie == .even && below % 2 == 0)
  if within below && (preferBelow || !within above) then some below
  else if within above then some above
  else none

/-- The shortest digits that round to a positive rank, without final zeros, and the decimal
exponent of the first digit. Seventeen digits always suffice. -/
def shortest (tie : Tie) (rank : Nat) : List Char × Int :=
  let first := leadingExponent rank
  let grids := (List.range 17).map fun places : Nat => first - places
  let found := grids.findSome? fun exponent =>
    (onGrid tie rank exponent).map fun n => (n, exponent)
  match found with
  | none => (['0'], 0)
  | some (n, exponent) =>
    let digits := Nat.toDigits 10 n
    ((digits.reverse.dropWhile (· = '0')).reverse, exponent + digits.length - 1)

end Workflow.Double
