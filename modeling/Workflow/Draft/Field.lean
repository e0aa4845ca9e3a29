import Workflow.Draft.Condition
import Workflow.Json.Written
import Workflow.State.Alike

/-!
# Drafts of the parts of states

The parts that states are made of, as they are given, and the checks of each.

## Main definitions

* `Transition.check`, `Retrier.check`, `Delay.check`, `Common.check`: parts that are checked as
  they are
* `Draft.Catcher`, `Draft.Rule`, `Draft.Result`: parts of which something may still be missing
-/

namespace Workflow

/-- Checks that a transition names its state. -/
def Transition.check : Transition → Checked Transition
  | .next name => if name = "" then .error (.missing "Next") else .ok (.next name)
  | .finish => .ok .finish

/-- The transition that a state or catcher must have. -/
def requireTransition : Option Transition → Checked Transition
  | none => .error (.missing "Next/End")
  | some transition => transition.check

/-- Checks that there are error names, and that none is empty. -/
def checkErrors (names : List String) : Checked Unit :=
  if names.isEmpty then .error (.missing "ErrorEquals")
  else
    match names.findIdx? (· == "") with
    | none => .ok ()
    | some index => .error ⟨[.item "ErrorEquals" index], .invalid .emptyErrorName⟩

/-- Checks that a number of seconds, if given, is positive. -/
def checkPositive (field : String) (seconds : Option UInt32) : Checked Unit :=
  if seconds = some 0 then .error (.invalid field .notPositive) else .ok ()

/-- Checks that a factor, if given, is a number not less than one. -/
def checkBackoff : Option Double → Checked Unit
  | none => .ok ()
  | some rate =>
    if rate.isFinite && !rate.lt .one then .ok ()
    else .error (.invalid "BackoffRate" (.backoffTooSmall rate))

/-- Checks a retrier. -/
def Retrier.check (r : Retrier) : Checked Retrier := do
  checkErrors r.errors
  checkPositive "IntervalSeconds" r.intervalSeconds
  checkBackoff r.backoffRate
  .ok r

/-- Checks how long to wait. -/
def Delay.check : Delay → Checked Delay
  | .seconds count => .ok (.seconds count)
  | .secondsPath path => do
    checkPath "SecondsPath" .reference path
    .ok (.secondsPath path)
  | .timestamp instant => do
    checkTimestamp "Timestamp" instant
    .ok (.timestamp instant)
  | .timestampPath path => do
    checkPath "TimestampPath" .reference path
    .ok (.timestampPath path)

/-- Checks the paths that states have in common. -/
def Common.check (c : Common) : Checked Unit := do
  checkSelector "InputPath" .path c.inputPath
  checkSelector "OutputPath" .path c.outputPath

/-- Checks where a result is put. -/
def checkResultPath (path : Option Selector) : Checked Unit :=
  checkSelector "ResultPath" .reference path

/-- Checks that parameters, if given, are an object. -/
def checkParameters : Option Json → Checked (Option (List (String × Json)))
  | none => .ok none
  | some (.object members) => .ok (some members)
  | some other => .error (.invalid "Parameters" (.notObject other))

namespace Draft

/-- A catcher of which something may be missing. -/
structure Catcher where
  errors : List String := []
  resultPath : Option Selector := none
  transition : Option Transition := none
  deriving DecidableEq

instance : Alike Catcher := .ofEq Catcher

/-- The catcher, or the first thing wrong with it. -/
def Catcher.build (c : Catcher) : Checked Workflow.Catcher := do
  checkErrors c.errors
  checkResultPath c.resultPath
  let transition ← requireTransition c.transition
  .ok ⟨c.errors, c.resultPath, transition⟩

/-- The policies of a state: retriers are checked before catchers. -/
def buildPolicies (retriers : List Retrier) (catchers : List Catcher) :
    Checked (List Retrier × List Workflow.Catcher) := do
  let retriers ← Checked.each "Retry" Retrier.check retriers
  let catchers ← Checked.each "Catch" Catcher.build catchers
  .ok (retriers, catchers)

/-- A rule of which something may be missing. -/
structure Rule where
  condition : Option Condition := none
  transition : Option Transition := none

instance : Alike Rule :=
  ⟨fun a b => alike a.condition b.condition && alike a.transition b.transition⟩

/-- The rule, or the first thing wrong with it. A rule cannot leave the scope. -/
def Rule.build (r : Rule) : Checked Workflow.Rule := do
  let condition ← match r.condition with
    | none => throw (.missing "Condition")
    | some condition => condition.build
  let transition ← match r.transition with
    | none => throw (.missing "Next")
    | some .finish => throw (.invalid "Next" .ruleFinishes)
    | some transition => transition.check
  return ⟨condition, transition⟩

/-- A fixed result in the form it was given: a value, a text that is read when the state is
built, or data that has no value. -/
inductive Result where
  | value (value : Json)
  | text (text : String)
  | unrepresentable (reason : Unrepresentable)

namespace Result

/-- The result given by data of any shape. -/
def ofDatum (datum : Datum) : Result :=
  match datum.toJson with
  | .ok json => .value json
  | .error reason => .unrepresentable reason

/-- The value of a result. -/
def build : Result → Checked Json
  | .value json => .ok json
  | .text json =>
    match Json.parse json with
    | .ok parsed => .ok parsed
    | .error fault => .error (.invalid "Result" (.notJson fault))
  | .unrepresentable reason => .error (.invalid "Result" (.unrepresentable reason))

/-- Results are alike when they are given in the same form by like data. -/
def eq : Result → Result → Bool
  | value a, value b => alike a b
  | text a, text b => a == b
  | unrepresentable a, unrepresentable b => a == b
  | _, _ => false

instance : Alike Result := ⟨eq⟩

end Result

end Draft

end Workflow
