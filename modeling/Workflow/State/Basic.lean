import Workflow.Condition.Basic
import Workflow.Json.Basic
import Workflow.Policy

/-!
# States and machines

The seven kinds of state, the branches that a parallel state runs, and the machine itself. A
machine and every branch is a scope: states with unique names in the order of their registration,
and the name of the first one to run.

## Main definitions

* `State`: a state of any kind
* `Branch`, `Machine`: the scopes
* `States.get?`: the state of a name
-/

namespace Workflow

/-- The kinds of state. -/
inductive StateKind where
  | task
  | pass
  | wait
  | choice
  | succeed
  | fail
  | parallel
  deriving DecidableEq

namespace StateKind

/-- Every kind. -/
def all : List StateKind := [task, pass, wait, choice, succeed, fail, parallel]

/-- The name of a kind. -/
def name : StateKind → String
  | task => "Task"
  | pass => "Pass"
  | wait => "Wait"
  | choice => "Choice"
  | succeed => "Succeed"
  | fail => "Fail"
  | parallel => "Parallel"

end StateKind

/-- What states of all kinds but `fail` have in common: a remark, and the parts of the input and
of the output that are passed on. -/
structure Common where
  comment : Option String := none
  inputPath : Option Selector := none
  outputPath : Option Selector := none
  deriving DecidableEq

instance : Alike Common := .ofEq Common

/-- A state that has work done. -/
structure Task extends Common where
  resource : String
  parameters : Option (List (String × Json))
  resultPath : Option Selector
  timeoutSeconds : Option UInt32
  heartbeatSeconds : Option UInt32
  retriers : List Retrier
  catchers : List Catcher
  transition : Transition

/-- A state that passes its input on, or a fixed result. -/
structure Pass extends Common where
  result : Option Json
  parameters : Option (List (String × Json))
  resultPath : Option Selector
  transition : Transition

/-- How long to wait: a number of seconds or until an instant, given or found in the input. -/
inductive Delay where
  | seconds (count : UInt64)
  | secondsPath (path : String)
  | timestamp (instant : Timestamp)
  | timestampPath (path : String)
  deriving DecidableEq

/-- A state that waits. -/
structure Wait extends Common where
  delay : Delay
  transition : Transition

/-- A rule of a choice: where control goes when a condition holds. -/
structure Rule where
  condition : Condition
  transition : Transition

/-- The state a rule sends control to. -/
def Rule.next? (r : Rule) : Option String :=
  r.transition.next?

/-- A state that chooses by the first rule whose condition holds. -/
structure Choice extends Common where
  rules : List Rule
  default : Option String

/-- A state that ends in failure. -/
structure Fail where
  comment : Option String
  error : Option String
  cause : Option String
  deriving DecidableEq

/-- A branch of a parallel state, with states of type `σ`. -/
structure Branch (σ : Type) where
  comment : Option String
  startAt : String
  states : List (String × σ)

/-- A state that runs branches, with states of type `σ`. -/
structure Parallel (σ : Type) extends Common where
  branches : List (Branch σ)
  resultPath : Option Selector
  retriers : List Retrier
  catchers : List Catcher
  transition : Transition

/-- A state. -/
inductive State where
  | task (task : Task)
  | pass (pass : Pass)
  | wait (wait : Wait)
  | choice (choice : Choice)
  | succeed (common : Common)
  | fail (fail : Fail)
  | parallel (parallel : Parallel State)

/-- States with their names, in order. -/
abbrev States := List (String × State)

/-- A state machine. -/
structure Machine where
  comment : Option String
  startAt : String
  timeoutSeconds : Option UInt32
  version : Option String
  states : States

namespace State

/-- The kind of a state. -/
def kind : State → StateKind
  | task _ => .task
  | pass _ => .pass
  | wait _ => .wait
  | choice _ => .choice
  | succeed _ => .succeed
  | fail _ => .fail
  | parallel _ => .parallel

/-- What a state has in common with others; a failing state only has its remark. -/
def common : State → Common
  | task s => s.toCommon
  | pass s => s.toCommon
  | wait s => s.toCommon
  | choice s => s.toCommon
  | succeed common => common
  | fail s => { comment := s.comment }
  | parallel s => s.toCommon

end State

namespace States

/-- The state of a name. -/
def get? (states : States) (name : String) : Option State :=
  (states.find? fun entry => entry.1 == name).map Prod.snd

theorem get?_eq (states : States) (name : String) : states.get? name = Json.get? name states := by
  induction states with
  | nil => rfl
  | cons entry states ih =>
    obtain ⟨key, s⟩ := entry
    by_cases h : key = name
    · simp [get?, Json.get?, h]
    · simpa [get?, Json.get?, h] using ih

theorem mem_of_get? {states : States} {name : String} {state : State}
    (h : states.get? name = some state) : (name, state) ∈ states :=
  Json.mem_of_get? (get?_eq states name ▸ h)

/-- The names of states. -/
def names (states : States) : List String :=
  states.map Prod.fst

/-- Whether there is a state of a name. -/
def contains (states : States) (name : String) : Bool :=
  (states.get? name).isSome

end States

end Workflow
