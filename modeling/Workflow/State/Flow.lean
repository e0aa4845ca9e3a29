import Workflow.State.Basic

/-!
# The flow of control

Where control may go from a state.

## Main definitions

* `State.transition?`, `State.catchers`, `State.successors`: where control may go from a state
* `State.isTerminal`: whether control leaves the scope when a state completes
-/

namespace Workflow

namespace State

/-- The transition of a state that has a single one. -/
def transition? : State → Option Transition
  | task s => some s.transition
  | pass s => some s.transition
  | wait s => some s.transition
  | parallel s => some s.transition
  | choice _ | succeed _ | fail _ => none

/-- Whether control leaves the scope when the state completes. -/
def isTerminal : State → Bool
  | succeed _ | fail _ => true
  | s => s.transition?.any Transition.isFinish

/-- The catchers of a state. -/
def catchers : State → List Catcher
  | task s => s.catchers
  | parallel s => s.catchers
  | _ => []

/-- The states to which the rules and the default of a choice send control. -/
def choiceSuccessors : State → List String
  | choice s => s.rules.filterMap Rule.next? ++ s.default.toList
  | _ => []

/-- The states to which control may go from a state, in the order of its parts. A state that is
named twice is listed twice. -/
def successors (s : State) : List String :=
  (s.transition?.bind Transition.next?).toList ++ s.choiceSuccessors ++
    s.catchers.filterMap fun c => c.transition.next?

end State

end Workflow
