import Workflow.Condition.Value

/-!
# Conditions

The conditions on which a choice is made: comparisons of the value at a path with an expected
value, and their combinations.

## Main definitions

* `Comparison`: a comparison of the value at a path with an expected value
* `Condition`: a tree of comparisons
* `Condition.children`: the direct parts of a combination
* `Condition.paths`: the paths a condition looks at, from left to right
-/

namespace Workflow

/-- A comparison of the value that a reference path selects. -/
structure Comparison where
  comparator : Comparator
  path : String
  expected : Expected
  deriving DecidableEq

instance : Alike Comparison :=
  ⟨fun a b => a.comparator == b.comparator && alike a.path b.path && alike a.expected b.expected⟩

/-- A condition. -/
inductive Condition where
  | comparison (comparison : Comparison)
  | and (parts : List Condition)
  | or (parts : List Condition)
  | not (part : Condition)

namespace Condition

/-- The direct parts of a combination; a comparison has none. -/
def children : Condition → List Condition
  | comparison _ => []
  | and parts | or parts => parts
  | not part => [part]

mutual

/-- Every path of a condition, from left to right. -/
def paths : Condition → List String
  | comparison c => [c.path]
  | and parts | or parts => pathsOf parts
  | not part => paths part

/-- Every path of a list of conditions, from left to right. -/
def pathsOf : List Condition → List String
  | [] => []
  | part :: parts => paths part ++ pathsOf parts

end

mutual

/-- Conditions are alike when they are the same tree with like comparisons. -/
def alike : Condition → Condition → Bool
  | comparison a, comparison b => Alike.alike a b
  | and a, and b => alikeParts a b
  | or a, or b => alikeParts a b
  | not a, not b => alike a b
  | _, _ => false

/-- The parts of two combinations are alike one by one. -/
def alikeParts : List Condition → List Condition → Bool
  | [], [] => true
  | a :: as, b :: bs => alike a b && alikeParts as bs
  | _, _ => false

end

instance : Alike Condition := ⟨alike⟩

end Condition

end Workflow
