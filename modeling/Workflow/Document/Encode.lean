import Workflow.Document.Rule
import Workflow.Json.Text

/-!
# The document of a machine

The value and the texts of a machine. Keys come in a fixed order, the kind of a state first, and
fields that are absent are left out, as are lists of policies that are empty.

## Main definitions

* `Machine.toJson`: the value of a machine
* `Machine.text`, `Machine.prettyText`: the texts of a machine
-/

namespace Workflow

/-- Members, some of which may be absent. -/
abbrev Members := List (String × Json)

namespace Members

/-- A member that may be absent. -/
def optional {α : Type} (key : String) (toJson : α → Json) : Option α → Members
  | none => []
  | some value => [(key, toJson value)]

/-- A list that is left out when it is empty. -/
def list {α : Type} (key : String) (toJson : α → Json) : List α → Members
  | [] => []
  | items => [(key, .array (items.map toJson))]

end Members

/-- The value of a number of 32 bits. -/
def natural32Json (n : UInt32) : Json :=
  .number (.whole (.ofUInt64 n.toUInt64))

/-- The value of a path field. -/
def Selector.toJson : Selector → Json
  | path text => .string text
  | discard => .null

/-- The value of error names. -/
def errorsJson (names : List String) : Json :=
  .array (names.map Json.string)

/-- The members that say where control goes. -/
def Transition.toMembers : Transition → Members
  | next name => [("Next", .string name)]
  | finish => [("End", .bool true)]

/-- The members of a retrier. -/
def Retrier.toMembers (r : Retrier) : Members :=
  [("ErrorEquals", errorsJson r.errors)] ++
    Members.optional "IntervalSeconds" natural32Json r.intervalSeconds ++
    Members.optional "MaxAttempts" natural32Json r.maxAttempts ++
    Members.optional "BackoffRate" Datum.ofDouble r.backoffRate

/-- The value of a retrier. -/
def Retrier.toJson (r : Retrier) : Json :=
  .object r.toMembers

/-- The members of a catcher. -/
def Catcher.toMembers (c : Catcher) : Members :=
  [("ErrorEquals", errorsJson c.errors)] ++
    Members.optional "ResultPath" Selector.toJson c.resultPath ++
    c.transition.toMembers

/-- The value of a catcher. -/
def Catcher.toJson (c : Catcher) : Json :=
  .object c.toMembers

/-- The members that states have in common, behind their kind. -/
def Common.toMembers (kind : StateKind) (c : Common) : Members :=
  [("Type", Json.string kind.name)] ++
    Members.optional "Comment" Json.string c.comment ++
    Members.optional "InputPath" Selector.toJson c.inputPath ++
    Members.optional "OutputPath" Selector.toJson c.outputPath

/-- The members of a state that has work done. -/
def Task.toMembers (t : Task) : Members :=
  t.toCommon.toMembers .task ++
    [("Resource", .string t.resource)] ++
    Members.optional "Parameters" Json.object t.parameters ++
    Members.optional "ResultPath" Selector.toJson t.resultPath ++
    Members.optional "TimeoutSeconds" natural32Json t.timeoutSeconds ++
    Members.optional "HeartbeatSeconds" natural32Json t.heartbeatSeconds ++
    Members.list "Retry" Retrier.toJson t.retriers ++
    Members.list "Catch" Catcher.toJson t.catchers ++
    t.transition.toMembers

/-- The members of a state that passes its input on. -/
def Pass.toMembers (p : Pass) : Members :=
  p.toCommon.toMembers .pass ++
    Members.optional "Result" id p.result ++
    Members.optional "Parameters" Json.object p.parameters ++
    Members.optional "ResultPath" Selector.toJson p.resultPath ++
    p.transition.toMembers

/-- The member that says how long to wait. -/
def Delay.toMember : Delay → String × Json
  | seconds count => ("Seconds", .number (.whole (.ofUInt64 count)))
  | secondsPath path => ("SecondsPath", .string path)
  | timestamp instant => ("Timestamp", .string instant.text)
  | timestampPath path => ("TimestampPath", .string path)

/-- The members of a state that waits. -/
def Wait.toMembers (w : Wait) : Members :=
  w.toCommon.toMembers .wait ++ [w.delay.toMember] ++ w.transition.toMembers

/-- The members of a state that chooses. -/
def Choice.toMembers (c : Choice) : Members :=
  c.toCommon.toMembers .choice ++
    [("Choices", .array (c.rules.map fun rule => .object rule.toMembers))] ++
    Members.optional "Default" Json.string c.default

/-- The members of a state that ends in failure. -/
def Fail.toMembers (f : Fail) : Members :=
  ({ comment := f.comment } : Common).toMembers .fail ++
    Members.optional "Error" Json.string f.error ++
    Members.optional "Cause" Json.string f.cause

/-- The members of a branch, given those of its states. -/
def branchMembers (comment : Option String) (startAt : String) (states : Members) : Members :=
  Members.optional "Comment" Json.string comment ++
    [("StartAt", .string startAt), ("States", .object states)]

namespace State

mutual

/-- The members of a state. -/
def toMembers : State → Members
  | task t => t.toMembers
  | pass p => p.toMembers
  | wait w => w.toMembers
  | choice c => c.toMembers
  | succeed common => common.toMembers .succeed
  | fail f => f.toMembers
  | parallel ⟨common, branches, resultPath, retriers, catchers, transition⟩ =>
    common.toMembers .parallel ++
      [("Branches", .array (branchItems branches))] ++
      Members.optional "ResultPath" Selector.toJson resultPath ++
      Members.list "Retry" Retrier.toJson retriers ++
      Members.list "Catch" Catcher.toJson catchers ++
      transition.toMembers

/-- The values of branches. -/
def branchItems : List (Branch State) → List Json
  | [] => []
  | ⟨comment, startAt, states⟩ :: branches =>
    .object (branchMembers comment startAt (stateMembers states)) :: branchItems branches

/-- The states of a scope under their names. -/
def stateMembers : List (String × State) → Members
  | [] => []
  | (name, state) :: states => (name, .object (toMembers state)) :: stateMembers states

end

end State

namespace Machine

/-- The members of a machine. -/
def toMembers (m : Machine) : Members :=
  Members.optional "Comment" Json.string m.comment ++
    [("StartAt", .string m.startAt)] ++
    Members.optional "TimeoutSeconds" natural32Json m.timeoutSeconds ++
    Members.optional "Version" Json.string m.version ++
    [("States", .object (State.stateMembers m.states))]

/-- The value of a machine. -/
def toJson (m : Machine) : Json :=
  .object m.toMembers

/-- The text of a machine without spaces. -/
def text (m : Machine) : String :=
  m.toJson.compact

/-- The text of a machine with one item or member a line. -/
def prettyText (m : Machine) : String :=
  m.toJson.pretty

end Machine

end Workflow
