/-!
# Comparators

A comparator says how a value of one family is compared: its name is the name of the family
followed by that of the operator. Strings, numbers and timestamps are ordered, so they have all
five operators; booleans only have equality.

## Main definitions

* `Family`, `Operator`: what is compared, and how
* `Comparator`: a family with an operator that it has
* `Comparator.all`: the sixteen comparators
* `Comparator.resolve?`, `Comparator.ofKey?`: the comparator of a family and operator, and of a
  name

## Main results

* `mem_all`: no comparator is missing from the list
-/

namespace Workflow

/-- The families of values that are compared. -/
inductive Family where
  | string
  | numeric
  | timestamp
  | boolean
  deriving DecidableEq

/-- The name of a family. -/
def Family.name : Family → String
  | string => "String"
  | numeric => "Numeric"
  | timestamp => "Timestamp"
  | boolean => "Boolean"

/-- The relations a value can be compared by. -/
inductive Operator where
  | equals
  | greaterThan
  | greaterThanEquals
  | lessThan
  | lessThanEquals
  deriving DecidableEq

/-- The name of an operator. -/
def Operator.name : Operator → String
  | equals => "Equals"
  | greaterThan => "GreaterThan"
  | greaterThanEquals => "GreaterThanEquals"
  | lessThan => "LessThan"
  | lessThanEquals => "LessThanEquals"

/-- A family with one of its operators. -/
structure Comparator where
  family : Family
  operator : Operator
  boolean_equals : family = .boolean → operator = .equals
  deriving DecidableEq

namespace Comparator

/-- The comparator of a family and an operator, if the family has the operator. -/
def resolve? (family : Family) (operator : Operator) : Option Comparator :=
  if h : family = .boolean → operator = .equals then some ⟨family, operator, h⟩ else none

/-- The name of a comparator, which is its key in a document. -/
def key (c : Comparator) : String :=
  c.family.name ++ c.operator.name

/-- Every comparator, family by family. -/
def all : List Comparator :=
  [Family.string, .numeric, .timestamp, .boolean].flatMap fun family =>
    [Operator.equals, .greaterThan, .greaterThanEquals, .lessThan, .lessThanEquals].filterMap
      fun operator => resolve? family operator

/-- The comparator of a name. -/
def ofKey? (key : String) : Option Comparator :=
  all.find? fun c => c.key == key

theorem mem_all (c : Comparator) : c ∈ all := by
  obtain ⟨family, operator, h⟩ := c
  have found : resolve? family operator = some ⟨family, operator, h⟩ := dif_pos h
  simp only [all, List.mem_flatMap, List.mem_filterMap]
  exact ⟨family, by cases family <;> decide, operator, by cases operator <;> decide, found⟩

end Comparator

end Workflow
