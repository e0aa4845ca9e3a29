import Workflow.Condition.Value
import Workflow.Draft.Datum
import Workflow.Json.Fault
import Workflow.Json.Text
import Workflow.Path.Scan

/-!
# Defects of a definition

What is wrong with a definition, and where: a defect is located by the steps that lead to the
offending field from the value that was checked. Whoever checks a part of something larger puts
the step to that part in front.

## Main definitions

* `Step`, `Location`: the way to a field
* `Defect.Cause`: what is wrong
* `Defect`: a cause with its location
* `Defect.within`: a defect as seen from the value around
* `Defect.message`: how a defect is said
* `Checked.inTurn`, `Checked.each`: the treatment of a list, up to the first defect
-/

namespace Workflow

/-- One step on the way to a field. -/
inductive Step where
  | key (name : String)
  | item (key : String) (index : Nat)
  | state (name : String)
  deriving DecidableEq

/-- The text of a step. -/
def Step.text : Step → String
  | .key name => name
  | .item name index => name ++ "[" ++ toString index ++ "]"
  | .state name => "States." ++ name

/-- The way to a field, from the outside in. -/
abbrev Location := List Step

/-- The text of a location. -/
def Location.text (location : Location) : String :=
  ".".intercalate (location.map Step.text)

/-- What is wrong with a value that is there. -/
inductive Flaw where
  | notPositive
  | notBelowTimeout (timeout : UInt32)
  | emptyErrorName
  | emptyStateName
  | backoffTooSmall (rate : Double)
  | notFinite (value : Numeric)
  | yearOutside (year : Int)
  | notObject (found : Json)
  | notJson (fault : Json.Fault)
  | unrepresentable (reason : Unrepresentable)
  | ruleFinishes

/-- The message of a flaw. -/
def Flaw.message : Flaw → String
  | notPositive => "must be a positive integer"
  | notBelowTimeout timeout =>
    "must be smaller than TimeoutSeconds (" ++ toString timeout.toNat ++ ")"
  | emptyErrorName => "error name is empty"
  | emptyStateName => "state name is empty"
  | backoffTooSmall rate =>
    rate.text .plain ++ " is not a number greater than or equal to 1.0"
  | notFinite value => value.text ++ " is not a finite number"
  | yearOutside year => (TimestampError.yearOutside year).message
  | notObject found => "expected a JSON object, found " ++ found.compact
  | notJson fault => "not valid JSON: " ++ fault.message
  | unrepresentable reason => "cannot be represented as JSON: " ++ reason.message
  | ruleFinishes => "a choice rule must transition to a named state"

/-- What is wrong with a field. -/
inductive Defect.Cause where
  | badPath (text : String) (grammar : Path.Grammar) (refusal : Path.Refusal)
  | missing
  | mismatch (path : String) (operator : Operator) (family : Family)
  | unresolved (target : String)
  | invalid (flaw : Flaw)
  | stranded

/-- Something wrong with a definition. -/
structure Defect where
  location : Location
  cause : Defect.Cause

/-- The kinds of defect. -/
inductive DefectKind where
  | invalidPath
  | missingRequiredField
  | typeMismatch
  | unresolvedReference
  | invalidValue
  | noTerminalPath
  deriving DecidableEq

/-- The name of a kind. -/
def DefectKind.name : DefectKind → String
  | invalidPath => "InvalidPath"
  | missingRequiredField => "MissingRequiredField"
  | typeMismatch => "TypeMismatch"
  | unresolvedReference => "UnresolvedReference"
  | invalidValue => "InvalidValue"
  | noTerminalPath => "NoTerminalPath"

namespace Defect

/-- The kind of a defect. -/
def kind (d : Defect) : DefectKind :=
  match d.cause with
  | .badPath .. => .invalidPath
  | .missing => .missingRequiredField
  | .mismatch .. => .typeMismatch
  | .unresolved _ => .unresolvedReference
  | .invalid _ => .invalidValue
  | .stranded => .noTerminalPath

/-- The text of the location. -/
def field (d : Defect) : String :=
  d.location.text

/-- What is said about a field. -/
def Cause.message (field : String) : Cause → String
  | badPath text grammar refusal =>
    field ++ ": '" ++ text ++ "' is not a valid " ++ grammar.name ++ ": " ++ refusal.message
  | missing => field ++ " is required"
  | mismatch path operator family =>
    field ++ ": " ++ family.name ++ " value for '" ++ path ++ "' cannot be used with " ++
      operator.name
  | unresolved target => field ++ ": state '" ++ target ++ "' does not exist"
  | invalid flaw => field ++ ": " ++ flaw.message
  | stranded => field ++ ": no path from this state reaches a terminal state"

/-- The message of a defect. -/
def message (d : Defect) : String :=
  d.cause.message d.field

/-- A defect as seen from a value that holds, behind a step, the one it was found in. -/
def within (step : Step) (d : Defect) : Defect :=
  { d with location := step :: d.location }

/-- A field that is required but absent. -/
def missing (field : String) : Defect := ⟨[.key field], .missing⟩

/-- A field with a flawed value. -/
def invalid (field : String) (flaw : Flaw) : Defect := ⟨[.key field], .invalid flaw⟩

@[simp]
theorem location_within (step : Step) (d : Defect) :
    (d.within step).location = step :: d.location := rfl

end Defect

/-- The result of a check or of building something. -/
abbrev Checked (α : Type) := Except Defect α

namespace Checked

variable {α β : Type}

/-- A result as seen from a value that holds, behind a step, the one it was found in. -/
def within (step : Step) : Checked α → Checked α
  | .ok a => .ok a
  | .error d => .error (d.within step)

/-- Treats every item in turn, from the given index on and as seen from behind a step to the item;
the first defect counts. -/
def inTurn (step : Nat → α → Step) (treat : α → Checked β) :
    (index : Nat) → List α → Checked (List β)
  | _, [] => .ok []
  | index, a :: as => do
    let b ← (treat a).within (step index a)
    let bs ← inTurn step treat (index + 1) as
    .ok (b :: bs)

/-- Treats every item of a field in turn; the first defect counts. -/
def each (key : String) (treat : α → Checked β) (as : List α) : Checked (List β) :=
  inTurn (fun index _ => .item key index) treat 0 as

end Checked

end Workflow
