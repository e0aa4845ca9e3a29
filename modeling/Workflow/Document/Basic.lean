import Workflow.State.Basic

/-!
# Documents

The contents of a definition as it is written, field by field, before it is known whether the
fields fit together. Fields that may be absent are optional, and a transition is a pair of keys
of which at most one should be there.

## Main definitions

* `Exit`: how a document says where control goes
* `Document.State`: the document of a state of any kind
* `Document.Machine`: the document of a machine
-/

namespace Workflow.Document

/-- The two keys that say where control goes. -/
structure Exit where
  next : Option String := none
  finish : Option Bool := none
  deriving DecidableEq

/-- The document of a catcher. -/
structure Catcher where
  errors : List String := []
  resultPath : Option Selector := none
  exit : Exit := {}
  deriving DecidableEq

/-- The document of a state that has work done. -/
structure Task extends Common where
  resource : String := ""
  parameters : Option Json := none
  resultPath : Option Selector := none
  timeoutSeconds : Option UInt32 := none
  heartbeatSeconds : Option UInt32 := none
  retriers : List Retrier := []
  catchers : List Catcher := []
  exit : Exit := {}

/-- The document of a state that passes its input on. -/
structure Pass extends Common where
  result : Option Json := none
  parameters : Option Json := none
  resultPath : Option Selector := none
  exit : Exit := {}

/-- The document of a state that waits. -/
structure Wait extends Common where
  seconds : Option UInt64 := none
  secondsPath : Option String := none
  timestamp : Option String := none
  timestampPath : Option String := none
  exit : Exit := {}

/-- The document of a state that chooses; its rules are objects that have not been looked at. -/
structure Choice extends Common where
  rules : List (List (String × Json)) := []
  default : Option String := none

/-- The document of a state that runs branches, with states of type `σ`. -/
structure Parallel (σ : Type) extends Common where
  branches : List (Branch σ) := []
  resultPath : Option Selector := none
  retriers : List Retrier := []
  catchers : List Catcher := []
  exit : Exit := {}

/-- The document of a state. -/
inductive State where
  | task (task : Task)
  | pass (pass : Pass)
  | wait (wait : Wait)
  | choice (choice : Choice)
  | succeed (common : Common)
  | fail (fail : Fail)
  | parallel (parallel : Parallel State)

/-- Documents of states with their names, in order. -/
abbrev States := List (String × State)

/-- The document of a machine. -/
structure Machine where
  comment : Option String := none
  startAt : String := ""
  timeoutSeconds : Option UInt32 := none
  version : Option String := none
  states : States := []

end Workflow.Document
