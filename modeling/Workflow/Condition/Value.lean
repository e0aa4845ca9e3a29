import Workflow.Alike
import Workflow.Condition.Comparator
import Workflow.Double.Round
import Workflow.Double.Text
import Workflow.Time.Timestamp

/-!
# Expected values

The right-hand side of a comparison. A number remembers whether it was given as an integer.

## Main definitions

* `Numeric`: an integer of 64 bits or a double
* `Expected`: a value of one of the four families
* `Expected.text`: the canonical text of a value
-/

namespace Workflow

/-- A number that is compared with. -/
inductive Numeric where
  | integer (n : Int64)
  | double (x : Double)
  deriving DecidableEq

namespace Numeric

/-- Numeric equality within each kind of number. -/
def eq : Numeric → Numeric → Bool
  | integer m, integer n => m == n
  | double x, double y => x.eq y
  | _, _ => false

instance : Alike Numeric := ⟨eq⟩

/-- The number as a double. -/
def toDouble : Numeric → Double
  | integer n => .ofInt n.toInt
  | double x => x

/-- Whether the number is finite. -/
def isFinite : Numeric → Bool
  | integer _ => true
  | double x => x.isFinite

/-- The canonical text: integers in full, doubles with the shortest digits that read back. -/
def text : Numeric → String
  | integer n => toString n.toInt
  | double x => x.text .plain

end Numeric

/-- A value that is compared with. -/
inductive Expected where
  | string (text : String)
  | numeric (value : Numeric)
  | timestamp (value : Timestamp)
  | boolean (value : Bool)
  deriving DecidableEq

namespace Expected

/-- The family of a value. -/
def family : Expected → Family
  | string _ => .string
  | numeric _ => .numeric
  | timestamp _ => .timestamp
  | boolean _ => .boolean

/-- The canonical text of a value. -/
def text : Expected → String
  | string text => text
  | numeric value => value.text
  | timestamp value => value.text
  | boolean value => if value then "true" else "false"

/-- Equality of values: numbers are compared numerically and timestamps as instants. -/
def eq : Expected → Expected → Bool
  | string a, string b => a == b
  | numeric a, numeric b => a.eq b
  | timestamp a, timestamp b => a.eq b
  | boolean a, boolean b => a == b
  | _, _ => false

instance : Alike Expected := ⟨eq⟩

end Expected

end Workflow
