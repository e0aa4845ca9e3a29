import Workflow.Double.Basic

/-!
# Rounding to a double

The double nearest to a rational, integral or decimal number. Between two equally near
neighbours the one of even rank is taken, and what lies beyond the largest finite number by half
a step or more becomes infinite.

## Main definitions

* `Format.nearest`: the rank nearest to a nonnegative quotient
* `Double.ofRatio`, `Double.ofInt`: rounding of a quotient and of an integer
* `Decimal`: a decimal number, `digits * 10 ^ exponent`
* `Double.ofDecimal`, `Double.ofDecimalSingle`: rounding of a decimal number, directly or to
  single precision first
-/

namespace Workflow

namespace Double.Format

/-- The largest rank whose magnitude is at most `units`. -/
def floorRank (f : Format) (units : Nat) : Nat :=
  if units < 2 * f.block then units
  else
    let shift := units.log2 - f.fractionBits
    shift * f.block + units >>> shift

/-- The rank nearest to `num / den`; of two equally near ones, the even one. -/
def nearest (f : Format) (num den : Nat) : Nat :=
  let units := num <<< f.unitExponent
  let below := f.floorRank (units / den)
  let middle := (f.scaled below + f.scaled (below + 1)) * den
  if 2 * units < middle then below
  else if middle < 2 * units then below + 1
  else if below % 2 = 0 then below else below + 1

end Double.Format

namespace Double

/-- The double of a sign and a rank, infinite when the rank is beyond the finite ones. -/
def ofRank (negative : Bool) (rank : Nat) : Double :=
  if h : rank < Format.double.size then finite ⟨negative, rank, h⟩ else infinite negative

/-- The double nearest to `num / den`, with the sign given. -/
def ofRatio (negative : Bool) (num den : Nat) : Double :=
  ofRank negative (Format.double.nearest num den)

/-- The double nearest to an integer. -/
def ofInt (n : Int) : Double :=
  ofRatio (n < 0) n.natAbs 1

end Double

/-- The decimal number `digits * 10 ^ exponent`. -/
structure Decimal where
  digits : Nat
  exponent : Int
  deriving DecidableEq

namespace Decimal

/-- The place of the point relative to the first digit: the number is less than `10 ^ place`, and
at least a tenth of that unless it is zero. -/
def place (d : Decimal) : Int :=
  (Nat.toDigits 10 d.digits).length + d.exponent

/-- The number as a quotient of natural numbers. -/
def ratio (d : Decimal) : Nat × Nat :=
  if 0 ≤ d.exponent then (d.digits * Nat.pow 10 d.exponent.toNat, 1)
  else (d.digits, Nat.pow 10 (-d.exponent).toNat)

/-- The rank nearest to the number in a format. Numbers of more than 400 places before or after
the point are beyond the range of either format, so that the quotient is not formed for them. -/
def nearest (f : Double.Format) (d : Decimal) : Nat :=
  if d.digits = 0 ∨ d.place < -400 then 0
  else if 400 < d.place then f.size
  else f.nearest d.ratio.1 d.ratio.2

end Decimal

namespace Double

/-- The double nearest to a decimal number, with the sign given. -/
def ofDecimal (negative : Bool) (d : Decimal) : Double :=
  ofRank negative (d.nearest Format.double)

/-- The double that equals the single-precision number nearest to a decimal number. -/
def ofDecimalSingle (negative : Bool) (d : Decimal) : Double :=
  let rank := d.nearest Format.single
  if rank < Format.single.size then
    ofRatio negative (Format.single.scaled rank) (1 <<< Format.single.unitExponent)
  else infinite negative

end Double

end Workflow
