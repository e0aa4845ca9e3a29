import Workflow.Alike

/-!
# Double-precision numbers

A finite double is a sign and a *rank*: the nonnegative finite doubles, listed from zero upwards,
are numbered from zero, so that neighbouring doubles have neighbouring ranks. The magnitude of a
rank is a natural number of units of `2 ^ -1074`, the least positive double. The ranks below
`2 ^ 52` are spaced by one unit; from there on every block of `2 ^ 52` ranks doubles the spacing.

## Main definitions

* `Double.Format`: the widths that distinguish one binary format from another
* `Format.scaled`: the magnitude of a rank, in units of the least positive number
* `Finite`, `Double`: the finite doubles, and all of them
* `Double.eq`, `Double.lt`: the numeric comparisons, in which zero has no sign and the
  undefined number is comparable with nothing
-/

namespace Workflow

/-- A binary format with `fractionBits` bits after the leading one, whose least positive number is
`2 ^ -unitExponent`, and whose finite numbers fill `blocks` blocks of `2 ^ fractionBits` ranks. -/
structure Double.Format where
  fractionBits : Nat
  unitExponent : Nat
  blocks : Nat

namespace Double.Format

/-- The format of doubles. -/
def double : Format := ⟨52, 1074, 2047⟩

/-- The format of single-precision numbers, every one of which is a double too. -/
def single : Format := ⟨23, 149, 255⟩

/-- The number of ranks in a block. -/
def block (f : Format) : Nat := 1 <<< f.fractionBits

/-- The number of finite magnitudes. -/
def size (f : Format) : Nat := f.blocks * f.block

/-- The magnitude of rank `k`, in units of the least positive number. Ranks from `size` on
continue the sequence beyond the largest finite number. -/
def scaled (f : Format) (k : Nat) : Nat :=
  if k < f.block then k else (f.block + k % f.block) <<< (k / f.block - 1)

theorem block_pos (f : Format) : 0 < f.block := by
  rw [block, Nat.shiftLeft_eq, Nat.one_mul]
  exact Nat.two_pow_pos _

theorem scaled_of_lt {f : Format} {k : Nat} (h : k < f.block) : f.scaled k = k := by
  simp [scaled, h]

end Double.Format

/-- A finite double: its sign, kept for zero too, and the rank of its magnitude. -/
structure Finite where
  negative : Bool
  rank : Fin Double.Format.double.size
  deriving DecidableEq

/-- A double: a finite number, an infinity, or the result of an undefined operation. -/
inductive Double where
  | finite (x : Finite)
  | infinite (negative : Bool)
  | undefined
  deriving DecidableEq

namespace Finite

/-- Zero with the sign of negative numbers. -/
def negativeZero : Finite := ⟨true, 0, by decide⟩

/-- Numeric equality: the two zeros are equal. -/
def eq (x y : Finite) : Bool :=
  x.rank == y.rank && (x.negative == y.negative || x.rank.val == 0)

/-- A number that orders as the double does. -/
def order (x : Finite) : Int :=
  if x.negative then -(x.rank.val : Int) else x.rank.val

end Finite

namespace Double

/-- Numeric equality: the two zeros are equal, and the undefined number equals nothing. -/
def eq : Double → Double → Bool
  | finite x, finite y => x.eq y
  | infinite s, infinite t => s == t
  | _, _ => false

instance : Alike Double := ⟨eq⟩

/-- Numeric order. The undefined number is neither above nor below any other. -/
def lt : Double → Double → Bool
  | finite x, finite y => x.order < y.order
  | finite _, infinite negative => !negative
  | infinite negative, finite _ => negative
  | infinite s, infinite t => s && !t
  | _, _ => false

/-- Whether a double is a finite number. -/
def isFinite : Double → Bool
  | finite _ => true
  | _ => false

/-- The double 1. -/
def one : Double := finite ⟨false, ⟨1023 <<< 52, by decide⟩⟩

/-- The double 2. -/
def two : Double := finite ⟨false, ⟨1024 <<< 52, by decide⟩⟩

end Double

end Workflow
