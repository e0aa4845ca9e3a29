import Workflow.Document.Basic
import Workflow.Document.Shape

/-!
# The shapes of machines and their parts

The fields of every kind of document, in the order in which they are written.

## Main definitions

* `taskShape`, `passShape`, …: the shapes of the seven kinds of state
* `retrierShape`, `catcherShape`: the shapes of policies
* `branchShape`, `machineShape`: the shapes of scopes
-/

namespace Workflow.Document

variable {σ δ : Type}

/-- The fields that states have in common. -/
def commonFields (update : (Common → Common) → δ → δ) : List (Field δ) :=
  [.maybe "Comment" text fun value => update ({ · with comment := value }),
    .may "InputPath" selector fun value => update ({ · with inputPath := value }),
    .may "OutputPath" selector fun value => update ({ · with outputPath := value })]

/-- The fields that say where control goes. -/
def exitFields (update : (Exit → Exit) → δ → δ) : List (Field δ) :=
  [.maybe "Next" text fun value => update ({ · with next := value }),
    .maybe "End" flag fun value => update ({ · with finish := value })]

/-- The shape of a retrier. -/
def retrierShape : Shape Retrier where
  title := "RetrierDocument"
  blank := ⟨[], none, none, none⟩
  fields :=
    [.must "ErrorEquals" (list text) fun value d => { d with errors := value },
      .maybe "IntervalSeconds" natural32 fun value d => { d with intervalSeconds := value },
      .maybe "MaxAttempts" natural32 fun value d => { d with maxAttempts := value },
      .maybe "BackoffRate" double fun value d => { d with backoffRate := value }]

/-- The shape of a catcher. -/
def catcherShape : Shape Catcher where
  title := "CatcherDocument"
  blank := {}
  fields :=
    [.must "ErrorEquals" (list text) fun value d => { d with errors := value },
      .may "ResultPath" selector fun value d => { d with resultPath := value }] ++
    exitFields fun update d => { d with exit := update d.exit }

/-- The shape of a state that has work done. -/
def taskShape : Shape Task where
  title := "TaskDocument"
  blank := {}
  fields :=
    commonFields (fun update d => { d with toCommon := update d.toCommon }) ++
    [.must "Resource" text fun value d => { d with resource := value },
      .may "Parameters" anything fun value d => { d with parameters := value },
      .may "ResultPath" selector fun value d => { d with resultPath := value },
      .maybe "TimeoutSeconds" natural32 fun value d => { d with timeoutSeconds := value },
      .maybe "HeartbeatSeconds" natural32 fun value d => { d with heartbeatSeconds := value },
      .listed "Retry" retrierShape.read fun value d => { d with retriers := value },
      .listed "Catch" catcherShape.read fun value d => { d with catchers := value }] ++
    exitFields fun update d => { d with exit := update d.exit }

/-- The shape of a state that passes its input on. -/
def passShape : Shape Pass where
  title := "PassDocument"
  blank := {}
  fields :=
    commonFields (fun update d => { d with toCommon := update d.toCommon }) ++
    [.may "Result" anything fun value d => { d with result := value },
      .may "Parameters" anything fun value d => { d with parameters := value },
      .may "ResultPath" selector fun value d => { d with resultPath := value }] ++
    exitFields fun update d => { d with exit := update d.exit }

/-- The shape of a state that waits. -/
def waitShape : Shape Wait where
  title := "WaitDocument"
  blank := {}
  fields :=
    commonFields (fun update d => { d with toCommon := update d.toCommon }) ++
    [.maybe "Seconds" natural64 fun value d => { d with seconds := value },
      .maybe "SecondsPath" text fun value d => { d with secondsPath := value },
      .maybe "Timestamp" text fun value d => { d with timestamp := value },
      .maybe "TimestampPath" text fun value d => { d with timestampPath := value }] ++
    exitFields fun update d => { d with exit := update d.exit }

/-- The shape of a state that chooses. -/
def choiceShape : Shape Choice where
  title := "ChoiceDocument"
  blank := {}
  fields :=
    commonFields (fun update d => { d with toCommon := update d.toCommon }) ++
    [.must "Choices" (list rule) fun value d => { d with rules := value },
      .maybe "Default" text fun value d => { d with default := value }]

/-- The shape of a state that ends well. -/
def succeedShape : Shape Common where
  title := "SucceedDocument"
  blank := {}
  fields := commonFields id

/-- The shape of a state that ends in failure. -/
def failShape : Shape Fail where
  title := "FailDocument"
  blank := ⟨none, none, none⟩
  fields :=
    [.maybe "Comment" text fun value d => { d with comment := value },
      .maybe "Error" text fun value d => { d with error := value },
      .maybe "Cause" text fun value d => { d with cause := value }]

/-- Reads the states of a scope, each by `read`. -/
def stateMembers (read : Written → Reading σ) (states : List (String × σ)) :
    List (String × Written) → Option Json.Fault → Reading (List (String × σ))
  | [], none => .ok states
  | [], some fault => .error (.fault fault)
  | (name, written) :: members, fault =>
    match read written with
    | .ok state => stateMembers read (Json.insert name state states) members fault
    | .error problem => .error (.inState name problem)

/-- Reads the states of a scope. -/
def scopeStates (read : Written → Reading σ) : Written → Reading (List (String × σ))
  | .object members fault => stateMembers read [] members fault
  | written => .error (unwanted .states written)

/-- The shape of a branch whose states are read by `read`. -/
def branchShape (read : Written → Reading σ) : Shape (Branch σ) where
  title := "BranchDocument"
  blank := ⟨none, "", []⟩
  fields :=
    [.maybe "Comment" text fun value d => { d with comment := value },
      .must "StartAt" text fun value d => { d with startAt := value },
      .must "States" (scopeStates read) fun value d => { d with states := value }]

/-- The shape of a state that runs branches whose states are read by `read`. -/
def parallelShape (read : Written → Reading σ) : Shape (Parallel σ) where
  title := "ParallelDocument"
  blank := {}
  fields :=
    commonFields (fun update d => { d with toCommon := update d.toCommon }) ++
    [.must "Branches" (list (branchShape read).read) fun value d => { d with branches := value },
      .may "ResultPath" selector fun value d => { d with resultPath := value },
      .listed "Retry" retrierShape.read fun value d => { d with retriers := value },
      .listed "Catch" catcherShape.read fun value d => { d with catchers := value }] ++
    exitFields fun update d => { d with exit := update d.exit }

/-- The shape of a machine whose states are read by `read`. -/
def machineShape (read : Written → Reading State) : Shape Machine where
  title := "MachineDocument"
  blank := {}
  fields :=
    [.maybe "Comment" text fun value d => { d with comment := value },
      .must "StartAt" text fun value d => { d with startAt := value },
      .maybe "TimeoutSeconds" natural32 fun value d => { d with timeoutSeconds := value },
      .maybe "Version" text fun value d => { d with version := value },
      .must "States" (scopeStates read) fun value d => { d with states := value }]

end Workflow.Document
