import Workflow.Condition.Basic
import Workflow.Defect

/-!
# Drafts of conditions

A condition as it is asked for: comparisons name an operator, and the comparator follows from the
family of the expected value when the condition is built.

## Main definitions

* `Draft.Condition`: a condition that has not been checked
* `Draft.Condition.build`: the condition, or the first thing wrong with it

The parts of a combination are checked from left to right, and a defect in a part is located by
the way to it: `And[1].Not.Variable`.
-/

namespace Workflow

/-- Checks a path that is given for a field. -/
def checkPath (field : String) (grammar : Path.Grammar) (text : String) : Checked Unit :=
  match Path.check grammar text with
  | .ok () => .ok ()
  | .error refusal => .error ⟨[.key field], .badPath text grammar refusal⟩

/-- Checks a path field that may be absent; discarding is always allowed. -/
def checkSelector (field : String) (grammar : Path.Grammar) : Option Selector → Checked Unit
  | some (.path text) => checkPath field grammar text
  | some .discard | none => .ok ()

/-- Checks that a timestamp given for a field can be written. -/
def checkTimestamp (field : String) (timestamp : Timestamp) : Checked Unit :=
  match timestamp.checkRange with
  | .ok () => .ok ()
  | .error _ => .error (.invalid field (.yearOutside timestamp.year))

namespace Draft

/-- A condition that has not been checked. -/
inductive Condition where
  | comparison (operator : Operator) (path : String) (value : Expected)
  | and (parts : List Condition)
  | or (parts : List Condition)
  | not (part : Condition)

/-- Checks that a value can be written under a comparator: numbers are finite, and timestamps
have years of four digits. -/
def checkExpected (comparator : Comparator) : Expected → Checked Unit
  | .numeric value =>
    if value.isFinite then .ok () else .error (.invalid comparator.key (.notFinite value))
  | .timestamp timestamp => checkTimestamp comparator.key timestamp
  | .string _ | .boolean _ => .ok ()

/-- The comparison of an operator with a value, if everything about it is right. -/
def buildComparison (operator : Operator) (path : String) (value : Expected) :
    Checked Comparison := do
  checkPath "Variable" .reference path
  match Comparator.resolve? value.family operator with
  | none => .error ⟨[.key "Condition"], .mismatch path operator value.family⟩
  | some comparator =>
    checkExpected comparator value
    .ok ⟨comparator, path, value⟩

namespace Condition

mutual

/-- The condition, or the first thing wrong with it. -/
def build : Condition → Checked Workflow.Condition
  | comparison operator path value => do
    let comparison ← buildComparison operator path value
    .ok (.comparison comparison)
  | and [] => .error (.missing "And")
  | and parts => do
    let parts ← buildParts "And" 0 parts
    .ok (.and parts)
  | or [] => .error (.missing "Or")
  | or parts => do
    let parts ← buildParts "Or" 0 parts
    .ok (.or parts)
  | not part => do
    let part ← (build part).within (.key "Not")
    .ok (.not part)

/-- The parts of a combination from an index on, or the first thing wrong with them. -/
def buildParts (key : String) (index : Nat) : List Condition → Checked (List Workflow.Condition)
  | [] => .ok []
  | part :: parts => do
    let part ← (build part).within (.item key index)
    let parts ← buildParts key (index + 1) parts
    .ok (part :: parts)

end

mutual

/-- Conditions are alike when they are the same tree with like comparisons. -/
def alike : Condition → Condition → Bool
  | comparison o p v, comparison o' p' v' => o == o' && Alike.alike p p' && Alike.alike v v'
  | and a, and b => alikeParts a b
  | or a, or b => alikeParts a b
  | not a, not b => alike a b
  | _, _ => false

/-- The parts of two combinations are alike one by one. -/
def alikeParts : List Condition → List Condition → Bool
  | [], [] => true
  | a :: as, b :: bs => alike a b && alikeParts as bs
  | _, _ => false

end

instance : Alike Condition := ⟨alike⟩

end Condition

end Draft

end Workflow
